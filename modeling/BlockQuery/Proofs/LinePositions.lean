/-
  Reading blocks by position.

  `readBlock` takes lists of lines apart.  Here is the same reader the way it works on a list that
  stays where it is: a block is a list whose first line is looked up, a loop has a position in its
  block and moves it on, an element or an entry owns a slice of the lines, and the text behind a
  dash is a slice of bytes.  Nothing in these functions keeps a position inside its list, or makes
  a block smaller than the one around it: a look-up or a slice out of bounds is `stuck`, and so is a
  reading whose calls nest deeper than its fuel.

  A walk notes what it does (`Move`).  `Gives w r` says of a walk that it is not stuck, that it has
  the result `r`, and that each of its moves is safe.  It goes through a walk step by step
  (`Gives.bind`), so each function of the reader has one lemma.  The induction is on the fuel, and
  what it needs is bounded by the weight of the lines from the position on: a round goes on behind
  its line, and the block in it has less of that line or nothing (`gives_from`).

  Every function here has the shape of one that works on positions, with the bounds left to the
  proof, and every look-up has a branch for what would be an error in it.  So `Gives` does three
  things at once: the walk is not stuck, its result is that of the reader on lists, and its moves
  are safe.  The result is needed for the other two, since what a loop does next depends on what it
  has read.

  The log takes no part in the reading.  An entry of a block in it has the lines of the caller as
  well, since that a block is smaller compares it with the block around it.
-/
import BlockQuery.Proofs.DistinctKeys
import BlockQuery.Proofs.LineText

namespace BlockQuery.Block

/-! ## Walks

  The moves are noted where the program would index, slice or call: before a block is read, behind
  each round of a loop, and where the dash of an element is cut off.  What the log holds is shown
  elsewhere to be complete; here it is what `Safe` is asked of. -/

/-- What a reader does that has to stay in bounds. -/
inductive Move where
  /-- A block of some lines is read, for a document or from within the lines of another block. -/
  | enter (caller : Option (List Line)) (lines : List Line)
  /-- A loop over some lines moves from a position to the next. -/
  | advance (lines : List Line) (position next : Nat)
  /-- The first byte of a text is cut off. -/
  | cut (text : List Char)

/-- A reading that notes its moves, the last one first.  It has no outcome if it is stuck. -/
abbrev Walk :=
  ExceptT DocumentError (StateT (List Move) Option)

/-- Notes a move. -/
def note (m : Move) : Walk Unit :=
  modify (m :: ·)

/-- A look-up or a slice that is out of bounds, or a call for which no fuel is left. -/
def stuck {α : Type} : Walk α :=
  ExceptT.mk fun _ => none

/-- The line at a position.  Outside of the lines there is none, and the walk is stuck. -/
def lineAt (lines : List Line) (i : Nat) : Walk Line :=
  match lines[i]? with
  | some l => pure l
  | none => stuck

/-- The lines from one position up to another.  The positions must be in order and inside, as for a
    slice of an array. -/
def linesBetween (lines : List Line) (i j : Nat) : Walk (List Line) :=
  if i ≤ j ∧ j ≤ lines.length then pure ((lines.drop i).take (j - i)) else stuck

/-- The text behind its first byte; out of bounds if there is none, or if it is not a whole
    character. -/
def behindByte (text : List Char) : Walk (List Char) := do
  note (.cut text)
  match text with
  | c :: rest => if c.utf8Size = 1 then pure rest else stuck
  | [] => stuck

/-- The end of the run of lines with a property that starts at a position. -/
def runEnd (p : Line → Bool) (lines : List Line) (i : Nat) : Nat :=
  if h : i < lines.length then
    if p lines[i] then runEnd p lines (i + 1) else i
  else i
termination_by lines.length - i

/-- The end of the lines of an entry.  If its own line ends at its colon and no deeper line follows,
    the elements of a sequence at the same indentation belong to it. -/
def entryEnd (indent : Nat) (inline : Option (List Char)) (lines : List Line) (i : Nat) : Nat :=
  let deep := runEnd (isDeeper indent) lines i
  if inline = none ∧ deep = i then
    runEnd (fun l => isDeeper indent l || (l.indent == indent && isItem l.text)) lines i
  else deep

/-- The scalar that lines are together. -/
def walkScalar (lines : List Line) : Walk Value := do
  let first ← lineAt lines 0
  match readScalarLines first.number (lines.map (·.text)) with
  | .ok v => return v
  | .error e => throw e

section Readers

variable (block : List Line → Walk Value) (lines : List Line)

/-- Reads the lines from a position up to another as a block, null if there are none. -/
def walkBelow (i stop : Nat) : Walk Value := do
  if stop = i then return .null
  else
    let below ← linesBetween lines i stop
    block below

/-- Reads the element whose line is at a position, with the text behind its dash; the other lines
    that it owns go up to `stop`. -/
def walkElement (i stop : Nat) (l : Line) (text : List Char) : Walk Value := do
  let content := Text.trimStart text
  if content.isEmpty then walkBelow block lines (i + 1) stop
  else
    let offset := 1 + byteLength text - byteLength content
    let below ← linesBetween lines (i + 1) stop
    block (⟨l.number, l.indent + offset, content⟩ :: below)

/-- Reads the value of the entry whose line is at a position, with the text behind its colon; the
    other lines that it owns go up to `stop`. -/
def walkEntry (i stop : Nat) (l : Line) : Option (List Char) → Walk Value
  | some text => do
      let below ← linesBetween lines (i + 1) stop
      walkScalar (⟨l.number, l.indent, text⟩ :: below)
  | none => walkBelow block lines (i + 1) stop

end Readers

mutual
/-- Reads lines as a block.  `fuel` is how deep the calls may nest, one for each block and each
    round of a loop. -/
def walkBlock : Nat → Option (List Line) → List Line → Walk Value
  | 0, _, _ => stuck
  | fuel + 1, caller, lines => do
      note (.enter caller lines)
      let first ← lineAt lines 0
      if isItem first.text then
        let vs ← walkItems fuel lines first.indent 0
        return .sequence vs
      else if (keyLine? first.text).isSome then
        let es ← walkEntries fuel lines first.indent 0
        return .mapping (Entries.ofPairs es)
      else walkScalar lines

/-- Reads the elements of a sequence from a position on.  Each round reads the element whose line is
    there, with the deeper lines behind it, and goes on where these end. -/
def walkItems : Nat → List Line → Nat → Nat → Walk (List Value)
  | 0, _, _, _ => stuck
  | fuel + 1, lines, indent, i => do
      if i < lines.length then
        let l ← lineAt lines i
        if l.indent ≠ indent then throw (.unexpectedIndent l.number)
        else if isItem l.text then
          let text ← behindByte l.text
          let stop := runEnd (isDeeper indent) lines (i + 1)
          let v ← walkElement (walkBlock fuel (some lines)) lines i stop l text
          note (.advance lines i stop)
          let vs ← walkItems fuel lines indent stop
          return v :: vs
        else throw (.mixedBlock l.number)
      else return []

/-- Reads the entries of a mapping from a position on.  The checks are made in the same order as by
    the reader on lists, so the same error is found first. -/
def walkEntries : Nat → List Line → Nat → Nat → Walk (List (String × Value))
  | 0, _, _, _ => stuck
  | fuel + 1, lines, indent, i => do
      if i < lines.length then
        let l ← lineAt lines i
        if l.indent ≠ indent then throw (.unexpectedIndent l.number)
        else if isItem l.text then throw (.mixedBlock l.number)
        else
          match keyLine? l.text with
          | none => throw (.mixedBlock l.number)
          | some k =>
              match readKey? k.key with
              | none => throw (.unterminatedQuote l.number)
              | some key =>
                  let stop := entryEnd indent k.inline lines (i + 1)
                  let v ← walkEntry (walkBlock fuel (some lines)) lines i stop l k.inline
                  note (.advance lines i stop)
                  let es ← walkEntries fuel lines indent stop
                  return (String.ofList key, v) :: es
      else return []
end

/-- Reads a text.  A line that stands further to the left than the first one is found before
    anything is read. -/
def walkChars (fuel : Nat) (cs : List Char) : Walk Value := do
  let lines := significantLines cs
  match lines.head? with
  | none => return .null
  | some first =>
      match lines.find? fun l => l.indent < first.indent with
      | some l => throw (.unexpectedIndent l.number)
      | none => walkBlock fuel none lines

/-! ## Walks that stay in bounds

  The conditions are about sizes only.  A block that is read inside another one has less text,
  counted in bytes, so the calls end; a loop moves on, so its rounds end. -/

/-- The bytes of the texts of some lines. -/
def textBytes : List Line → Nat
  | [] => 0
  | l :: ls => byteLength l.text + textBytes ls

/-- What has to hold of a move: a block has a line, and less text than the block around it; a loop
    moves on and not past the end; the byte that is cut off is a dash. -/
def Move.Safe : Move → Prop
  | enter none lines => lines ≠ []
  | enter (some caller) lines => lines ≠ [] ∧ textBytes lines < textBytes caller
  | advance lines position next => position < next ∧ next ≤ lines.length
  | cut text => text.head? = some '-'

/-- Whether a walk comes to a result by safe moves.  It is said for any log to start with, so that
    it can be said of every part of a walk. -/
def Gives {α : Type} (w : Walk α) (r : Except DocumentError α) : Prop :=
  ∀ log, ∃ moves, w.run.run log = some (r, moves ++ log) ∧ ∀ m ∈ moves, m.Safe

section Gives

variable {α β : Type} {w : Walk α} {r : Except DocumentError α}

/-- A result in hand takes no move. -/
theorem gives_pure (a : α) : Gives (pure a) (.ok a) :=
  fun _ => ⟨[], rfl, nofun⟩

/-- Nor does an error. -/
theorem gives_throw (e : DocumentError) : Gives (throw e : Walk α) (.error e) :=
  fun _ => ⟨[], rfl, nofun⟩

/-- A move that is noted must be safe. -/
theorem gives_note {m : Move} (h : m.Safe) : Gives (note m) (.ok ()) := by
  intro log
  refine ⟨[m], rfl, ?_⟩
  intro m' hm'
  rw [List.mem_singleton.1 hm']
  exact h

/-- Two walks one behind the other.  Of the second one only what it does behind the result of the
    first is asked for, which is where that result comes in. -/
theorem Gives.bind {f : α → Walk β} {g : α → Except DocumentError β} (hw : Gives w r)
    (hf : ∀ a, r = .ok a → Gives (f a) (g a)) : Gives (w >>= f) (r >>= g) := by
  intro log
  obtain ⟨moves, hrun, hsafe⟩ := hw log
  have hbind : (w >>= f).run.run log = Option.bind (some (r, moves ++ log)) fun p =>
      ExceptT.bindCont f p.1 p.2 := by
    rw [← hrun]
    rfl
  rw [hbind]
  cases r with
  | error e => exact ⟨moves, rfl, hsafe⟩
  | ok a =>
    obtain ⟨more, hmore, hsafe'⟩ := hf a rfl (moves ++ log)
    refine ⟨more ++ moves, ?_, ?_⟩
    · rw [List.append_assoc]
      exact hmore
    · intro m hm
      rcases List.mem_append.1 hm with hm | hm
      · exact hsafe' m hm
      · exact hsafe m hm

/-- A walk that has a result, and what goes on from there. -/
theorem Gives.next {a : α} {f : α → Walk β} {s : Except DocumentError β} (hw : Gives w (.ok a))
    (hf : Gives (f a) s) : Gives (w >>= f) s := by
  refine hw.bind (g := fun _ => s) ?_
  rintro _ ⟨⟩
  exact hf

/-- What is made of the result of a walk. -/
theorem Gives.map (hw : Gives w r) (f : α → β) :
    Gives (w >>= fun a => pure (f a)) (r.map f) := by
  have hmap : r.map f = r >>= fun a => .ok (f a) := by cases r <;> rfl
  rw [hmap]
  exact hw.bind fun a _ => gives_pure (f a)

end Gives

/-! ## Positions and slices

  A loop at a position stands for the lines from there on (`lines.drop i`).  These lemmas turn the
  look-up at a position, the end of a run and a slice into the first line, `takeWhile` and
  `dropWhile` of what is left, which is what the reader on lists uses. -/

section Positions

variable {p : Line → Bool} {lines : List Line} {i c : Nat} {l : Line} {rest : List Line}

/-- The line at a position is the first of those from there on. -/
theorem getElem?_of_drop (h : lines.drop i = l :: rest) : lines[i]? = some l := by
  rw [← List.head?_drop, h]
  rfl

/-- If a line is left, the position is inside. -/
theorem lt_length_of_drop (h : lines.drop i = l :: rest) : i < lines.length :=
  (List.getElem?_eq_some_iff.1 (getElem?_of_drop h)).1

/-- From the next position on there are the other lines. -/
theorem drop_succ_of_drop (h : lines.drop i = l :: rest) : lines.drop (i + 1) = rest := by
  rw [← List.tail_drop, h]
  rfl

/-- A look-up inside is not stuck. -/
theorem gives_lineAt (h : lines.drop i = l :: rest) : Gives (lineAt lines i) (.ok l) := by
  rw [lineAt, getElem?_of_drop h]
  exact gives_pure l

/-- The end of a run is its length behind its start.  By the recursion of `runEnd`, which goes on as
    long as the line at the position has the property. -/
theorem runEnd_eq (h : i ≤ lines.length) :
    runEnd p lines i = i + ((lines.drop i).takeWhile p).length := by
  fun_induction runEnd p lines i with
  | case1 i hlt hp ih =>
    rw [ih hlt, List.drop_eq_getElem_cons hlt, List.takeWhile_cons_of_pos hp, List.length_cons]
    omega
  | case2 i hlt hp =>
    rw [List.drop_eq_getElem_cons hlt, List.takeWhile_cons_of_neg hp]
    rfl
  | case3 i hge =>
    rw [List.drop_eq_nil_of_le (by omega)]
    rfl

/-- A run does not end before it starts. -/
theorem le_runEnd (h : i ≤ lines.length) : i ≤ runEnd p lines i := by
  rw [runEnd_eq h]
  omega

/-- Nor does it end past the last line. -/
theorem runEnd_le (h : i ≤ lines.length) : runEnd p lines i ≤ lines.length := by
  have hlength := (List.takeWhile_sublist p (l := lines.drop i)).length_le
  rw [List.length_drop] at hlength
  rw [runEnd_eq h]
  omega

/-- The lines behind a run.  A loop that goes on at the end of a run is a loop over these lines. -/
theorem drop_runEnd (h : i ≤ lines.length) :
    lines.drop (runEnd p lines i) = (lines.drop i).dropWhile p := by
  rw [runEnd_eq h, ← List.drop_drop]
  exact (congrArg (List.drop _) List.takeWhile_append_dropWhile.symm).trans List.drop_left

/-- The lines of a run, as a slice: its bounds are in order and inside, so it is not stuck. -/
theorem gives_linesBetween (h : i ≤ lines.length) :
    Gives (linesBetween lines i (runEnd p lines i)) (.ok ((lines.drop i).takeWhile p)) := by
  have hslice : (lines.drop i).take (runEnd p lines i - i) = (lines.drop i).takeWhile p := by
    rw [runEnd_eq h, Nat.add_sub_cancel_left]
    exact (congrArg (List.take _) List.takeWhile_append_dropWhile.symm).trans List.take_left
  rw [linesBetween, if_pos ⟨le_runEnd h, runEnd_le h⟩, hslice]
  exact gives_pure _

/-- A run is empty when the first line is not part of it. -/
theorem takeWhile_eq_nil_iff_head? {ls : List Line} :
    ls.takeWhile p = [] ↔ ls.head?.any p = false := by
  cases ls with
  | nil => simp
  | cons l ls => cases hp : p l <;> simp [hp]

/-- A run ends where it starts when it is empty. -/
theorem runEnd_eq_start_iff (h : i ≤ lines.length) :
    runEnd p lines i = i ↔ (lines.drop i).takeWhile p = [] := by
  rw [runEnd_eq h, ← List.length_eq_zero_iff]
  omega

/-- With text behind its colon, an entry owns the deeper lines. -/
theorem entryEnd_some (text : List Char) (lines : List Line) (i : Nat) :
    entryEnd c (some text) lines i = runEnd (isDeeper c) lines i := by
  simp [entryEnd]

/-- The lines below an entry are the run of lines that belong to it.  Whether the elements at the
    same indentation do is decided on the first line by both readers, once by its position and once
    by the list. -/
theorem entryEnd_none (h : i ≤ lines.length) :
    entryEnd c none lines i = runEnd (belongsBelow c (lines.drop i)) lines i := by
  have hstart := runEnd_eq_start_iff (p := isDeeper c) h
  rw [takeWhile_eq_nil_iff_head?] at hstart
  by_cases hdeep : (lines.drop i).head?.any (isDeeper c) = true
  · have hbelow : belongsBelow c (lines.drop i) = isDeeper c := by
      funext l
      rw [belongsBelow, if_pos hdeep]
    have hmoved : ¬ runEnd (isDeeper c) lines i = i := by
      rw [hstart, hdeep]
      decide
    rw [hbelow]
    exact if_neg fun hboth => hmoved hboth.2
  · have hbelow : belongsBelow c (lines.drop i) =
        fun l => isDeeper c l || (l.indent == c && isItem l.text) := by
      funext l
      rw [belongsBelow, if_neg hdeep]
    have hstays : runEnd (isDeeper c) lines i = i := hstart.2 (by simpa using hdeep)
    rw [hbelow]
    exact if_pos ⟨rfl, hstays⟩

end Positions

/-! ## Bytes

  Texts are measured in bytes, as the program measures them.  Blanks beyond ASCII have more than
  one, so the column of the text behind a dash is not counted in characters. -/

section Bytes

variable {cs : List Char} {p : Line → Bool} {lines : List Line} {i : Nat} {l : Line}
  {rest : List Line}

/-- Bytes add up. -/
theorem byteLength_append (as bs : List Char) :
    byteLength (as ++ bs) = byteLength as + byteLength bs := by
  induction as with
  | nil => rw [List.nil_append, byteLength, Nat.zero_add]
  | cons a as ih =>
    rw [List.cons_append, byteLength, byteLength, ih]
    omega

/-- A text that is not empty has some. -/
theorem byteLength_pos (h : cs ≠ []) : 0 < byteLength cs := by
  cases cs with
  | nil => exact absurd rfl h
  | cons c cs =>
    have hc := c.utf8Size_pos
    rw [byteLength]
    omega

/-- The bytes of a text are those of the blanks in front and those behind them. -/
theorem byteLength_trimStart (cs : List Char) :
    byteLength (cs.takeWhile Text.isBlank) + byteLength (Text.trimStart cs) = byteLength cs := by
  rw [← byteLength_append, Text.trimStart, List.takeWhile_append_dropWhile]

/-- Fewer lines have no more bytes. -/
theorem textBytes_le_of_sublist {ks ls : List Line} (h : ks.Sublist ls) :
    textBytes ks ≤ textBytes ls := by
  induction h with
  | slnil => exact Nat.le_refl _
  | cons l _ ih =>
    rw [textBytes]
    omega
  | cons_cons l _ ih =>
    rw [textBytes, textBytes]
    omega

/-- A line and a run of lines behind it are part of the lines they stand in, so a block that is made
    of them has no more text. -/
theorem textBytes_run_le (hi : lines.drop i = l :: rest) :
    byteLength l.text + textBytes (rest.takeWhile p) ≤ textBytes lines := by
  have hrun : (l :: rest.takeWhile p).Sublist (l :: rest) :=
    (List.takeWhile_sublist p).cons_cons l
  have hall : (l :: rest).Sublist lines := hi ▸ List.drop_sublist i lines
  exact textBytes_le_of_sublist (hrun.trans hall)

end Bytes

/-! ## The steps of the reader

  One lemma for each function, with what it calls given by hypothesis.  The blocks that a round
  reads are made of lines behind the position, or of the text behind the dash, and `ReadsBlocks`
  asks only for those that are small enough. -/

section Steps

variable {p : Line → Bool} {lines : List Line} {i c : Nat} {l : Line} {rest : List Line}

/-- An element starts with a dash. -/
theorem exists_of_isItem (h : isItem l.text = true) : ∃ text, l.text = '-' :: text := by
  unfold isItem at h
  split at h
  · rename_i heq
    exact ⟨_, heq⟩
  · rename_i heq
    exact ⟨_, heq⟩
  · cases h

/-- Cutting off a dash is safe: it is there, and it is one byte. -/
theorem gives_behindByte (text : List Char) : Gives (behindByte ('-' :: text)) (.ok text) := by
  have hbyte : '-'.utf8Size = 1 := by decide
  refine (gives_note (m := .cut ('-' :: text)) rfl).next ?_
  show Gives (if '-'.utf8Size = 1 then pure text else stuck) (.ok text)
  rw [if_pos hbyte]
  exact gives_pure text

/-- A loop moves on past a line and the run of lines behind it. -/
theorem gives_advance (h : i < lines.length) :
    Gives (note (.advance lines i (runEnd p lines (i + 1)))) (.ok ()) :=
  gives_note ⟨le_runEnd h, runEnd_le h⟩

/-- Lines that are no sequence and no mapping are one scalar. -/
theorem gives_walkScalar (l : Line) (ls : List Line) :
    Gives (walkScalar (l :: ls)) (readScalarLines l.number (l.text :: ls.map (·.text))) := by
  refine (gives_lineAt (i := 0) rfl).next ?_
  show Gives (match readScalarLines l.number (l.text :: ls.map (·.text)) with
    | .ok v => pure v
    | .error e => throw e) _
  cases readScalarLines l.number (l.text :: ls.map (·.text)) with
  | ok v => exact gives_pure v
  | error e => exact gives_throw e

/-- The line that the text behind a dash makes, from the lengths of the texts.  Its column is
    counted in bytes, by taking one length from another, and the dash and the blanks are what lies
    between. -/
theorem afterDash_eq {text : List Char} (h : l.text = '-' :: text) :
    afterDash l = ⟨l.number, l.indent + (1 + byteLength text - byteLength (Text.trimStart text)),
      Text.trimStart text⟩ := by
  have hbytes := byteLength_trimStart text
  rw [afterDash, h]
  show Line.mk l.number (l.indent + 1 + byteLength (text.takeWhile Text.isBlank)) _ = _
  rw [Line.mk.injEq]
  exact ⟨rfl, by omega, rfl⟩

/-- An entry with a text behind its colon is read from this text and the deeper lines. -/
theorem gives_walkEntry {block : List Line → Walk Value} (hi : lines.drop i = l :: rest)
    (text : List Char) :
    Gives (walkEntry block lines i (runEnd (isDeeper c) lines (i + 1)) l (some text))
      (readScalarLines l.number (text :: (rest.takeWhile (isDeeper c)).map (·.text))) := by
  have hslice := gives_linesBetween (p := isDeeper c) (lt_length_of_drop hi)
  rw [drop_succ_of_drop hi] at hslice
  exact hslice.next (gives_walkScalar ⟨l.number, l.indent, text⟩ _)

/-- What a round needs of the blocks that it reads: they are read if they have a line, weigh less
    than the lines from the position on, and have less text than all the lines. -/
def ReadsBlocks (block : List Line → Walk Value) (lines part : List Line) : Prop :=
  ∀ below, below ≠ [] → weight below < weight part → textBytes below < textBytes lines →
    Gives (block below) (readBelow below)

section Round

variable {block : List Line → Walk Value} (hi : lines.drop i = l :: rest)
  (hblock : ReadsBlocks block lines (l :: rest))

include hi hblock

/-- The lines below an element or an entry are read as a block, or there are none.  The block has
    less text than all the lines, since the line above it is not empty. -/
theorem gives_walkBelow (htext : l.text ≠ []) :
    Gives (walkBelow block lines (i + 1) (runEnd p lines (i + 1)))
      (readBelow (rest.takeWhile p)) := by
  have hlt : i < lines.length := lt_length_of_drop hi
  have hslice := gives_linesBetween (p := p) hlt
  have hstart := runEnd_eq_start_iff (p := p) hlt
  rw [drop_succ_of_drop hi] at hslice hstart
  rw [walkBelow]
  by_cases hnil : rest.takeWhile p = []
  · rw [if_pos (hstart.2 hnil), hnil, readBelow]
    exact gives_pure _
  · have hweight := weight_takeWhile_le p rest
    have hbytes := textBytes_run_le (p := p) hi
    have hpos := byteLength_pos htext
    rw [if_neg (mt hstart.1 hnil)]
    refine hslice.next (hblock _ hnil ?_ ?_)
    · simp only [weight]
      omega
    · omega

/-- An element is read from its line and the deeper ones behind it.  If there is text behind the
    dash, the block starts on the same line, and it is smaller by the dash and the blanks behind
    it. -/
theorem gives_walkElement {text : List Char} (hitem : isItem l.text = true)
    (htext : l.text = '-' :: text) :
    Gives (walkElement block lines i (runEnd (isDeeper c) lines (i + 1)) l text)
      (readBelow (dashBlock l (rest.takeWhile (isDeeper c)))) := by
  have hcontent : (afterDash l).text = Text.trimStart text := by rw [afterDash_eq htext]
  rw [walkElement, dashBlock, hcontent]
  by_cases hempty : (Text.trimStart text).isEmpty = true
  · rw [if_pos hempty, if_pos hempty]
    exact gives_walkBelow hi hblock (by simp [htext])
  · have hslice := gives_linesBetween (p := isDeeper c) (lt_length_of_drop hi)
    rw [drop_succ_of_drop hi] at hslice
    rw [if_neg hempty, if_neg hempty]
    -- the block has the line itself again, less its dash
    refine hslice.next ?_
    rw [← afterDash_eq htext]
    refine hblock _ (List.cons_ne_nil _ _) ?_ ?_
    · have hlength := length_afterDash_lt hitem
      have hweight := weight_takeWhile_le (isDeeper c) rest
      simp only [weight]
      omega
    · have hbytes := textBytes_run_le (p := isDeeper c) hi
      have htrim := byteLength_trimStart text
      have hdash : byteLength l.text = '-'.utf8Size + byteLength text := by rw [htext, byteLength]
      have hpos := Char.utf8Size_pos '-'
      rw [textBytes, hcontent]
      omega

end Round

variable {fuel : Nat} (hi : lines.drop i = l :: rest)
  (hblock : ReadsBlocks (walkBlock fuel (some lines)) lines (l :: rest))

include hi hblock

/-- One round over elements.  What follows the round is given by hypothesis, for whatever run of
    lines the element has. -/
theorem gives_walkItems
    (hnext : ∀ p, Gives (walkItems fuel lines c (runEnd p lines (i + 1)))
      (readItems c (rest.dropWhile p))) :
    Gives (walkItems (fuel + 1) lines c i) (readItems c (l :: rest)) := by
  have hlt := lt_length_of_drop hi
  rw [walkItems, if_pos hlt]
  refine (gives_lineAt hi).next ?_
  by_cases hcolumn : l.indent = c
  · rw [if_neg (not_not_intro hcolumn)]
    by_cases hitem : isItem l.text = true
    · obtain ⟨text, htext⟩ := exists_of_isItem hitem
      rw [if_pos hitem, readItems_cons hcolumn hitem, htext]
      refine (gives_behindByte text).next ?_
      refine (gives_walkElement hi hblock hitem htext).bind fun v _ => ?_
      refine (gives_advance hlt).next ?_
      exact (hnext _).bind fun vs _ => gives_pure (v :: vs)
    · rw [if_neg hitem, readItems_of_not_item hcolumn hitem]
      exact gives_throw _
  · rw [if_pos hcolumn, readItems_of_indent_ne hcolumn]
    exact gives_throw _

/-- One round over entries.  A key without text behind its colon has the lines that belong below it,
    and any other has the deeper lines. -/
theorem gives_walkEntries
    (hnext : ∀ p, Gives (walkEntries fuel lines c (runEnd p lines (i + 1)))
      (readEntries c (rest.dropWhile p))) :
    Gives (walkEntries (fuel + 1) lines c i) (readEntries c (l :: rest)) := by
  have hlt := lt_length_of_drop hi
  rw [walkEntries, if_pos hlt, readEntries_cons]
  refine (gives_lineAt hi).next ?_
  split
  · exact gives_throw _
  split
  · exact gives_throw _
  cases hk : keyLine? l.text with
  | none => exact gives_throw _
  | some k =>
    show Gives (match readKey? k.key with | none => _ | some key => _)
      (match readKey? k.key with | none => _ | some key => _)
    cases readKey? k.key with
    | none => exact gives_throw _
    | some key =>
      cases k.inline with
      | some text =>
        show Gives (walkEntry _ lines i (entryEnd c (some text) lines (i + 1)) l (some text) >>= _)
          (readScalarLines l.number _ >>= _)
        rw [entryEnd_some]
        refine (gives_walkEntry hi text).bind fun v _ => ?_
        refine (gives_advance hlt).next ?_
        exact (hnext _).bind fun es _ => gives_pure _
      | none =>
        have hne : l.text ≠ [] := by
          intro hnil
          rw [hnil] at hk
          cases hk
        show Gives (walkEntry _ lines i (entryEnd c none lines (i + 1)) l none >>= _)
          (readBelow _ >>= _)
        rw [entryEnd_none hlt, drop_succ_of_drop hi]
        refine (gives_walkBelow hi hblock hne).bind fun v _ => ?_
        refine (gives_advance hlt).next ?_
        exact (hnext _).bind fun es _ => gives_pure _

end Steps

/-! ## Whole readings

  The rounds of a loop nest, since each calls the next, and so do blocks.  Both use up fuel, and the
  weight pays for both: of the lines that are left in a loop, and of those in a block. -/

/-- A block is read by what its first line is, if its loops do what they should.  The first line
    exists, and the loops start at its position. -/
theorem gives_walkBlock {lines : List Line} {fuel : Nat} (hne : lines ≠ [])
    (hitems : ∀ c, Gives (walkItems fuel lines c 0) (readItems c lines))
    (hentries : ∀ c, Gives (walkEntries fuel lines c 0) (readEntries c lines))
    {caller : Option (List Line)} (hsafe : (Move.enter caller lines).Safe) :
    Gives (walkBlock (fuel + 1) caller lines) (readBelow lines) := by
  obtain ⟨first, rest, rfl⟩ := List.exists_cons_of_ne_nil hne
  rw [walkBlock, readBelow_cons, readBlock]
  refine (gives_note hsafe).next ?_
  refine (gives_lineAt (i := 0) rfl).next ?_
  split
  · exact (hitems first.indent).map Value.sequence
  split
  · exact (hentries first.indent).map fun es => Value.mapping (Entries.ofPairs es)
  · exact gives_walkScalar first rest

/-- From any position, elements and entries are read as from the lines that start there.  Two calls
    for each unit of weight are deep enough: a round, and the block in it. -/
theorem gives_from {fuel : Nat} (lines : List Line) (i : Nat)
    (h : 2 * weight (lines.drop i) < fuel) :
    (∀ c, Gives (walkItems fuel lines c i) (readItems c (lines.drop i))) ∧
      ∀ c, Gives (walkEntries fuel lines c i) (readEntries c (lines.drop i)) := by
  induction fuel using Nat.strong_induction_on generalizing lines i with
  | _ n ih =>
    obtain ⟨fuel, rfl⟩ : ∃ fuel, n = fuel + 1 := Nat.exists_eq_add_one.2 (by omega)
    cases hi : lines.drop i with
    | nil =>
      have hge : ¬ i < lines.length := Nat.not_lt.2 (List.drop_eq_nil_iff.1 hi)
      constructor
      · intro c
        rw [walkItems, if_neg hge, readItems]
        exact gives_pure []
      · intro c
        rw [walkEntries, if_neg hge, readEntries]
        exact gives_pure []
    | cons l rest =>
      rw [hi] at h
      have hblock : ReadsBlocks (walkBlock fuel (some lines)) lines (l :: rest) := by
        intro below hne hweight hbytes
        obtain ⟨fuel, rfl⟩ : ∃ k, fuel = k + 1 := Nat.exists_eq_add_one.2 (by omega)
        have hbelow := ih fuel (by omega) below 0 (show 2 * weight below < fuel by omega)
        exact gives_walkBlock hne hbelow.1 hbelow.2 ⟨hne, hbytes⟩
      -- the lines behind a round weigh less, and are those from the next position on
      have hnext : ∀ p, (∀ c, Gives (walkItems fuel lines c (runEnd p lines (i + 1)))
            (readItems c (rest.dropWhile p))) ∧
          ∀ c, Gives (walkEntries fuel lines c (runEnd p lines (i + 1)))
            (readEntries c (rest.dropWhile p)) := by
        intro p
        have hdrop : lines.drop (runEnd p lines (i + 1)) = rest.dropWhile p := by
          rw [drop_runEnd (lt_length_of_drop hi), drop_succ_of_drop hi]
        have hweight := weight_dropWhile_le p rest
        simp only [weight] at h
        rw [← hdrop] at hweight ⊢
        exact ih fuel (by omega) lines _ (by omega)
      constructor
      · intro c
        exact gives_walkItems hi hblock fun p => (hnext p).1 c
      · intro c
        exact gives_walkEntries hi hblock fun p => (hnext p).2 c

/-- **Reading by position ends and stays in bounds.**  A text of any kind is read by position, with
    calls no deeper than twice its weight, and with the result of `readChars`.  On the way every
    block that is read has a line, and less text than the block around it; every round of a loop
    moves on by a line at least and not past the end; and the byte that is cut off an element is its
    dash. -/
theorem walkChars_safe (cs : List Char) (spare : Nat) : ∃ moves,
    (walkChars (2 * weight (significantLines cs) + 2 + spare) cs).run.run [] =
      some (readChars cs, moves) ∧ ∀ m ∈ moves, m.Safe := by
  have hwalk : Gives (walkChars (2 * weight (significantLines cs) + 2 + spare) cs)
      (readChars cs) := by
    rw [walkChars, readChars, readLines.eq_def]
    cases significantLines cs with
    | nil => exact gives_pure _
    | cons first rest =>
      -- the first line itself is never the one that stands too far left
      have hfind : ((first :: rest).find? fun l => l.indent < first.indent) =
          rest.find? fun l => l.indent < first.indent :=
        List.find?_cons_of_neg (by simp)
      show Gives (match (first :: rest).find? _ with | some l => _ | none => _)
        (match rest.find? _ with | some l => _ | none => _)
      rw [hfind]
      cases rest.find? fun l => l.indent < first.indent with
      | some l => exact gives_throw _
      | none =>
        have hne : first :: rest ≠ [] := List.cons_ne_nil first rest
        have hfuel : 2 * weight (first :: rest) + 2 + spare =
            2 * weight (first :: rest) + 1 + spare + 1 := by omega
        have hfrom := gives_from (first :: rest) 0
          (show 2 * weight (first :: rest) < 2 * weight (first :: rest) + 1 + spare by omega)
        show Gives (walkBlock _ none (first :: rest)) (readBlock first rest)
        rw [← readBelow_cons, hfuel]
        exact gives_walkBlock hne hfrom.1 hfrom.2 hne
  obtain ⟨moves, hrun, hsafe⟩ := hwalk []
  rw [List.append_nil] at hrun
  exact ⟨moves, hrun, hsafe⟩

/-- The moves over an element that is a sequence with one element, the last one first. -/
example :
    let outer : List Line := [⟨1, 0, "- -".toList⟩]
    let inner : List Line := [⟨1, 2, ['-']⟩]
    (walkChars 10 "- -".toList).run.run [] = some (.ok (.sequence [.sequence [.null]]),
      [.advance outer 0 1, .advance inner 0 1, .cut ['-'], .enter (some outer) inner,
        .cut "- -".toList, .enter none outer]) := by cbv

end BlockQuery.Block

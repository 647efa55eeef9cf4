/-
  The log of a reading by position is complete.

  That every move in the log of a walk is safe says something about the reader only if its moves
  are in the log.  They are.  A walk never takes a move back (`Keeps`), so whatever is noted on the
  way stands in the log at the end (`Notes`), with a value or an error.  Three things follow.

    * Every block that is read to an end has its entry in the log: the block of the whole text
      (`enter_mem_of_walkChars`), and each block in an element or an entry, with the lines around
      it as its caller (`notes_walkElement`, `notes_walkBelow`).
    * Every round over an element cuts its dash off in the log (`notes_cut`).
    * A loop that comes to its end has left its way there, position by position, up to the end of
      its lines (`Travels`).

  `Keeps` goes through the readers by induction on the fuel (`keeps_walk`), since a block calls a
  loop and a round calls a block; all else is one walk behind another, which `run_bind_eq_some`
  takes apart.  Where a reader notes a move before it does anything else (`Begins`), both properties
  are read off its first step.
-/
import BlockQuery.Proofs.LinePositions

namespace BlockQuery.Block

/-! ## Walks and their logs

  What holds of the log is said of a walk from any log, so that it can be said of the parts of a
  walk as well.  A part keeps what came before it, and adds its own. -/

section Log

variable {α β : Type} {w : Walk α} {f : α → Walk β} {m : Move}

/-- Whether a walk leaves what was noted before it in the log. -/
def Keeps (w : Walk α) : Prop :=
  ∀ log r log', w.run.run log = some (r, log') → log <:+ log'

/-- Whether a walk that comes to an end, with a value or an error, has a move in the log. -/
def Notes (w : Walk α) (m : Move) : Prop :=
  ∀ log r log', w.run.run log = some (r, log') → m ∈ log'

/-- Two walks one behind the other end where the first one fails, or where the second one ends. -/
theorem run_bind_eq_some {log log'' : List Move} {s : Except DocumentError β}
    (h : (w >>= f).run.run log = some (s, log'')) :
    (∃ e, s = .error e ∧ w.run.run log = some (.error e, log'')) ∨
      ∃ a log', w.run.run log = some (.ok a, log') ∧ (f a).run.run log' = some (s, log'') := by
  have hbind : (w >>= f).run.run log = Option.bind (w.run.run log) fun p =>
      ExceptT.bindCont f p.1 p.2 := rfl
  rw [hbind] at h
  obtain ⟨⟨r, log'⟩, hw, hf⟩ := Option.bind_eq_some_iff.1 h
  cases r with
  | error e =>
    cases hf
    exact Or.inl ⟨e, rfl, hw⟩
  | ok a => exact Or.inr ⟨a, log', hw, hf⟩

/-- If both succeed, so did each. -/
theorem exists_of_run_bind_ok {log log'' : List Move} {b : β}
    (h : (w >>= f).run.run log = some (.ok b, log'')) :
    ∃ a log', w.run.run log = some (.ok a, log') ∧ (f a).run.run log' = some (.ok b, log'') := by
  rcases run_bind_eq_some h with ⟨e, he, -⟩ | hboth
  · cases he
  · exact hboth

/-- A result in hand notes nothing. -/
theorem keeps_pure (a : α) : Keeps (pure a) := by
  rintro log r log' ⟨⟩
  exact List.suffix_refl log

/-- Nor does an error. -/
theorem keeps_throw (e : DocumentError) : Keeps (throw e : Walk α) := by
  rintro log r log' ⟨⟩
  exact List.suffix_refl log

/-- A walk that is stuck has no log, so nothing is lost from it. -/
theorem keeps_stuck : Keeps (stuck : Walk α) :=
  fun _ _ _ h => nomatch h

/-- Noting a move only adds to the log. -/
theorem keeps_note (m : Move) : Keeps (note m) := by
  rintro log r log' ⟨⟩
  exact List.suffix_cons m log

/-- Two walks one behind the other keep what each of them keeps. -/
theorem Keeps.bind (hw : Keeps w) (hf : ∀ a, Keeps (f a)) : Keeps (w >>= f) := by
  intro log s log'' h
  rcases run_bind_eq_some h with ⟨e, -, hfail⟩ | ⟨a, log', hfirst, hsecond⟩
  · exact hw _ _ _ hfail
  · exact (hw _ _ _ hfirst).trans (hf a _ _ _ hsecond)

/-- A move that is noted is in the log. -/
theorem notes_note (m : Move) : Notes (note m) m := by
  rintro log r log' ⟨⟩
  exact List.mem_cons_self

/-- What the first of two walks notes is still there behind the second. -/
theorem Notes.bind (hw : Notes w m) (hf : ∀ a, Keeps (f a)) : Notes (w >>= f) m := by
  intro log s log'' h
  rcases run_bind_eq_some h with ⟨e, -, hfail⟩ | ⟨a, log', hfirst, hsecond⟩
  · exact hw _ _ _ hfail
  · exact (hf a _ _ _ hsecond).subset (hw _ _ _ hfirst)

/-- Whether a walk notes a move before all else, and keeps it. -/
def Begins (w : Walk α) (m : Move) : Prop :=
  ∃ rest : Unit → Walk α, w = (note m >>= rest) ∧ ∀ u, Keeps (rest u)

/-- What is noted first is in the log at the end. -/
theorem Begins.notes (h : Begins w m) : Notes w m := by
  obtain ⟨rest, rfl, hrest⟩ := h
  exact (notes_note m).bind hrest

/-- A walk that begins with a move keeps what came before it. -/
theorem Begins.keeps (h : Begins w m) : Keeps w := by
  obtain ⟨rest, rfl, hrest⟩ := h
  exact (keeps_note m).bind hrest

end Log

/-! ## The readers keep what is noted

  The parts of a round first, for any way to read a block, then the three readers at once. -/

section KeepsReaders

variable {block : List Line → Walk Value} {lines : List Line} {i stop : Nat} {l : Line}

/-- A look-up notes nothing. -/
theorem keeps_lineAt (lines : List Line) (i : Nat) : Keeps (lineAt lines i) := by
  unfold lineAt
  split
  · exact keeps_pure _
  · exact keeps_stuck

/-- Nor does a slice. -/
theorem keeps_linesBetween (lines : List Line) (i j : Nat) : Keeps (linesBetween lines i j) := by
  unfold linesBetween
  split
  · exact keeps_pure _
  · exact keeps_stuck

/-- Cutting a dash off is noted first. -/
theorem begins_behindByte (text : List Char) : Begins (behindByte text) (.cut text) := by
  refine ⟨_, rfl, fun _ => ?_⟩
  split
  · split
    · exact keeps_pure _
    · exact keeps_stuck
  · exact keeps_stuck

/-- A scalar is read without a move. -/
theorem keeps_walkScalar (lines : List Line) : Keeps (walkScalar lines) := by
  refine (keeps_lineAt lines 0).bind fun first => ?_
  split
  · exact keeps_pure _
  · exact keeps_throw _

/-- What is below adds the moves of its block. -/
theorem keeps_walkBelow (hblock : ∀ ls, Keeps (block ls)) :
    Keeps (walkBelow block lines i stop) := by
  unfold walkBelow
  split
  · exact keeps_pure _
  · exact (keeps_linesBetween lines i stop).bind hblock

/-- So does an element, with its text behind the dash or below. -/
theorem keeps_walkElement (hblock : ∀ ls, Keeps (block ls)) (text : List Char) :
    Keeps (walkElement block lines i stop l text) := by
  unfold walkElement
  dsimp only
  split
  · exact keeps_walkBelow hblock
  · exact (keeps_linesBetween lines (i + 1) stop).bind fun below => hblock _

/-- So does an entry. -/
theorem keeps_walkEntry (hblock : ∀ ls, Keeps (block ls)) (inline : Option (List Char)) :
    Keeps (walkEntry block lines i stop l inline) := by
  cases inline with
  | none => exact keeps_walkBelow hblock
  | some text => exact (keeps_linesBetween lines (i + 1) stop).bind fun below => keeps_walkScalar _

/-- A block is entered in the log before a line of it is looked at. -/
theorem begins_walkBlock {fuel : Nat} (caller : Option (List Line)) (lines : List Line)
    (hitems : ∀ ls indent i, Keeps (walkItems fuel ls indent i))
    (hentries : ∀ ls indent i, Keeps (walkEntries fuel ls indent i)) :
    Begins (walkBlock (fuel + 1) caller lines) (.enter caller lines) := by
  refine ⟨_, rfl, fun _ => (keeps_lineAt lines 0).bind fun first => ?_⟩
  split
  · exact (hitems lines first.indent 0).bind fun vs => keeps_pure _
  split
  · exact (hentries lines first.indent 0).bind fun es => keeps_pure _
  · exact keeps_walkScalar lines

end KeepsReaders

/-- No reader takes a move back.  The induction is on the fuel, as the readers call each other. -/
theorem keeps_walk (fuel : Nat) :
    (∀ caller lines, Keeps (walkBlock fuel caller lines)) ∧
      (∀ lines indent i, Keeps (walkItems fuel lines indent i)) ∧
      ∀ lines indent i, Keeps (walkEntries fuel lines indent i) := by
  induction fuel with
  | zero => exact ⟨fun _ _ => keeps_stuck, fun _ _ _ => keeps_stuck, fun _ _ _ => keeps_stuck⟩
  | succ fuel ih =>
    obtain ⟨hblock, hitems, hentries⟩ := ih
    refine ⟨?block, ?items, ?entries⟩
    case block =>
      intro caller lines
      exact (begins_walkBlock caller lines hitems hentries).keeps
    case items =>
      intro lines indent i
      rw [walkItems]
      split
      · refine (keeps_lineAt lines i).bind fun l => ?_
        split
        · exact keeps_throw _
        split
        · refine (begins_behindByte l.text).keeps.bind fun text => ?_
          refine (keeps_walkElement (hblock (some lines)) text).bind fun v => ?_
          refine (keeps_note _).bind fun _ => ?_
          exact (hitems lines indent _).bind fun vs => keeps_pure _
        · exact keeps_throw _
      · exact keeps_pure _
    case entries =>
      intro lines indent i
      rw [walkEntries]
      split
      · refine (keeps_lineAt lines i).bind fun l => ?_
        split
        · exact keeps_throw _
        split
        · exact keeps_throw _
        split
        · exact keeps_throw _
        split
        · exact keeps_throw _
        · refine (keeps_walkEntry (hblock (some lines)) _).bind fun v => ?_
          refine (keeps_note _).bind fun _ => ?_
          exact (hentries lines indent _).bind fun es => keeps_pure _
      · exact keeps_pure _

/-! ## Blocks and rounds

  A block notes its entry before it looks at a line, and a round its dash before it reads anything
  else.  What comes later in the same walk only adds to that. -/

/-- Every block that is read to an end has its entry in the log. -/
theorem notes_walkBlock (fuel : Nat) (caller : Option (List Line)) (lines : List Line) :
    Notes (walkBlock fuel caller lines) (.enter caller lines) := by
  cases fuel with
  | zero => exact fun _ _ _ h => nomatch h
  | succ fuel =>
    obtain ⟨-, hitems, hentries⟩ := keeps_walk fuel
    exact (begins_walkBlock caller lines hitems hentries).notes

section Rounds

variable {lines : List Line} {fuel indent i stop : Nat} {l : Line}

/-- What the second of two walks notes, if the first one has the value that it is given. -/
theorem Notes.after {α β : Type} {w : Walk α} {f : α → Walk β} {m : Move} {a : α}
    (hw : ∀ log r log', w.run.run log = some (r, log') → r = .ok a) (hf : Notes (f a) m) :
    Notes (w >>= f) m := by
  intro log s log'' h
  rcases run_bind_eq_some h with ⟨e, -, hfail⟩ | ⟨b, log', hfirst, hsecond⟩
  · exact nomatch hw _ _ _ hfail
  · cases hw _ _ _ hfirst
    exact hf _ _ _ hsecond

/-- A look-up that succeeds has the line at the position. -/
theorem lineAt_value (h : lines[i]? = some l) (log : List Move)
    (r : Except DocumentError Line) (log' : List Move)
    (hrun : (lineAt lines i).run.run log = some (r, log')) : r = .ok l := by
  rw [lineAt, h] at hrun
  cases hrun
  rfl

/-- A slice that succeeds has the lines between the positions. -/
theorem linesBetween_value (log : List Move) (r : Except DocumentError (List Line))
    (log' : List Move) (hrun : (linesBetween lines i stop).run.run log = some (r, log')) :
    r = .ok ((lines.drop i).take (stop - i)) := by
  unfold linesBetween at hrun
  split at hrun
  · cases hrun
    rfl
  · exact nomatch hrun

/-- The lines below an element or an entry are read as a block of the lines around them. -/
theorem notes_walkBelow (h : stop ≠ i) :
    Notes (walkBelow (walkBlock fuel (some lines)) lines i stop)
      (.enter (some lines) ((lines.drop i).take (stop - i))) := by
  rw [walkBelow, if_neg h]
  exact Notes.after linesBetween_value (notes_walkBlock fuel (some lines) _)

/-- So is an element with a text behind its dash, which is the first line of the block. -/
theorem notes_walkElement {text : List Char} (h : (Text.trimStart text).isEmpty = false) :
    Notes (walkElement (walkBlock fuel (some lines)) lines i stop l text)
      (.enter (some lines)
        (⟨l.number, l.indent + (1 + byteLength text - byteLength (Text.trimStart text)),
          Text.trimStart text⟩ :: (lines.drop (i + 1)).take (stop - (i + 1)))) := by
  rw [walkElement, h]
  exact Notes.after linesBetween_value (notes_walkBlock fuel (some lines) _)

/-- A round over an element cuts its dash off, whatever comes of the round. -/
theorem notes_cut (hline : lines[i]? = some l) (hcolumn : l.indent = indent)
    (hitem : isItem l.text = true) : Notes (walkItems fuel lines indent i) (.cut l.text) := by
  cases fuel with
  | zero => exact fun _ _ _ h => nomatch h
  | succ fuel =>
    obtain ⟨hblock, hitems, -⟩ := keeps_walk fuel
    rw [walkItems, if_pos (List.getElem?_eq_some_iff.1 hline).1]
    refine Notes.after (lineAt_value hline) ?_
    rw [if_neg (not_not_intro hcolumn), if_pos hitem]
    refine (begins_behindByte l.text).notes.bind fun text => ?_
    refine (keeps_walkElement (hblock (some lines)) text).bind fun v => ?_
    refine (keeps_note _).bind fun _ => ?_
    exact (hitems lines indent _).bind fun vs => keeps_pure _

/-! ## Loops

  The step of a round is noted behind the block in it, so it is there only if the round succeeds.  A
  loop that has a result has gone all the way: from any position there is a step to the next one, up
  to the end of the lines. -/

/-- The way of a loop from a position to the end of its lines, round by round, stands in a log. -/
inductive Travels (lines : List Line) (log : List Move) : Nat → Prop where
  | done {i : Nat} (h : lines.length ≤ i) : Travels lines log i
  | round {i next : Nat} (h : .advance lines i next ∈ log) (more : Travels lines log next) :
      Travels lines log i

/-- A round that succeeds puts its step in front of the way of the rounds behind it. -/
theorem travels_of_round {α β : Type} {w : Walk α} {loop : Walk β} {g : α → β → β}
    (hkeeps : Keeps loop)
    (hloop : ∀ log b log', loop.run.run log = some (.ok b, log') → Travels lines log' stop)
    {log : List Move} {b : β} {log' : List Move}
    (h : (do
      let a ← w
      note (.advance lines i stop)
      let b ← loop
      return g a b).run.run log = some (.ok b, log')) : Travels lines log' i := by
  obtain ⟨a, log₁, -, h⟩ := exists_of_run_bind_ok h
  obtain ⟨noted, log₂, hnote, h⟩ := exists_of_run_bind_ok h
  obtain ⟨b', log₃, hrun, hpure⟩ := exists_of_run_bind_ok h
  cases hpure
  have hstep : .advance lines i stop ∈ log₂ := notes_note _ _ _ _ hnote
  exact .round ((hkeeps _ _ _ hrun).subset hstep) (hloop _ _ _ hrun)

/-- A loop over elements that comes to its end has left its whole way in the log. -/
theorem travels_of_walkItems {log : List Move} {vs : List Value} {log' : List Move}
    (h : (walkItems fuel lines indent i).run.run log = some (.ok vs, log')) :
    Travels lines log' i := by
  induction fuel generalizing i log vs log' with
  | zero => exact nomatch h
  | succ fuel ih =>
    rw [walkItems] at h
    split at h
    · obtain ⟨l, log₁, -, h⟩ := exists_of_run_bind_ok h
      split at h
      · cases h
      split at h
      · obtain ⟨text, log₂, -, h⟩ := exists_of_run_bind_ok h
        exact travels_of_round ((keeps_walk fuel).2.1 lines indent _) (fun _ _ _ => ih) h
      · cases h
    · rename_i hend
      exact .done (Nat.not_lt.1 hend)

/-- So has a loop over entries. -/
theorem travels_of_walkEntries {log : List Move} {es : List (String × Value)} {log' : List Move}
    (h : (walkEntries fuel lines indent i).run.run log = some (.ok es, log')) :
    Travels lines log' i := by
  induction fuel generalizing i log es log' with
  | zero => exact nomatch h
  | succ fuel ih =>
    rw [walkEntries] at h
    split at h
    · obtain ⟨l, log₁, -, h⟩ := exists_of_run_bind_ok h
      split at h
      · cases h
      split at h
      · cases h
      split at h
      · cases h
      split at h
      · cases h
      · exact travels_of_round ((keeps_walk fuel).2.2 lines indent _) (fun _ _ _ => ih) h
    · rename_i hend
      exact .done (Nat.not_lt.1 hend)

end Rounds

/-! ## Texts

  A text is read as the block of all its lines.  What is noted there first is at the other end of
  the log, which every later move leaves where it is. -/

/-- **A text that has lines leaves the block of all of them in the log.**  The only texts without
    one are those with no line, and those with a line further left than the first, which are turned
    down before any block is read. -/
theorem enter_mem_of_walkChars {fuel : Nat} {cs : List Char} {first : Line} {rest : List Line}
    (hlines : significantLines cs = first :: rest) (hindent : ∀ l ∈ rest, first.indent ≤ l.indent)
    {r : Except DocumentError Value} {moves : List Move}
    (h : (walkChars fuel cs).run.run [] = some (r, moves)) :
    .enter none (significantLines cs) ∈ moves := by
  have hfind : ((first :: rest).find? fun l => l.indent < first.indent) = none := by
    rw [List.find?_eq_none]
    intro l hl
    rcases List.mem_cons.1 hl with rfl | hl
    · simp
    · have := hindent l hl
      simp only [decide_eq_true_eq]
      omega
  unfold walkChars at h
  simp only [hlines, List.head?_cons, hfind] at h
  rw [hlines]
  exact notes_walkBlock fuel none _ _ _ _ h

end BlockQuery.Block

/-
  What the functions of the grammar read.

  In terms of what is read (`Reads`) every function has one law, which says of all lexemes what it
  reads off them, with the functions it calls in the place of their bodies.  All that is proved
  about the grammar is proved from these laws; the bodies are opened here and nowhere else.

  Three relations describe lexemes without their places: `Next` for one token, `NotNext` for a token
  that is missing, and `Spells` for a word of tokens.  What a reader does next is decided by the
  next token, so the laws of `operator?`, `accept?` and `expect` come first, each with the reader
  that goes on behind it as a parameter.  Then every function of the grammar is one of these, and
  its law is one or two lines.

  All laws are for readers without a fault in the lexemes, since a query with a fault is never read
  to its end.

  The laws are equivalences.  That what is read is derived uses one direction of them, and that what
  is derived is read uses the other, and neither opens a reader again.  When a rule of the grammar
  changes, its reader and its law change with it, and then one lemma on each of the two sides.
-/
import BlockQuery.Proofs.Reading
import BlockQuery.Query.Grammar

namespace BlockQuery.Grammar

/-- The next token is `t`, and `rest` stands behind it.  The place of the lexeme is forgotten here,
    once and for all. -/
def Next (ts : List Lexeme) (t : Token) (rest : List Lexeme) : Prop :=
  ∃ l, l.token = t ∧ ts = l :: rest

/-- The token `t` does not come next: another one does, or none is left. -/
def NotNext (ts : List Lexeme) (t : Token) : Prop :=
  ∀ rest, ¬ Next ts t rest

/-- The tokens of `w` come next, and `rest` stands behind them. -/
def Spells (w : List Token) (ts rest : List Lexeme) : Prop :=
  ∃ us, us.map (·.token) = w ∧ ts = us ++ rest

/-! ## Words of tokens

  A lexeme carries its place in the source, and nothing that is proved about the grammar depends on
  it.  So the lexemes are described by their tokens alone, and what is left behind them is a list
  again: words are put together by the places between them. -/

section

variable {α β : Type} {m n : Nat} {a : α} {b : β} {t : Token} {ts rest : List Lexeme}

/-- A token takes one lexeme away.  The inductions over the lexemes that are left end by this. -/
theorem Next.shorter (h : Next ts t rest) : rest.length < ts.length := by
  obtain ⟨l, -, rfl⟩ := h
  exact Nat.lt_succ_self _

/-- The next token, where the lexemes are known. -/
theorem next_cons {l : Lexeme} {ls : List Lexeme} :
    Next (l :: ls) t rest ↔ l.token = t ∧ ls = rest := by
  constructor
  · rintro ⟨l', ht, h⟩
    obtain ⟨rfl, rfl⟩ := List.cons.inj h
    exact ⟨ht, rfl⟩
  · rintro ⟨ht, rfl⟩
    exact ⟨l, ht, rfl⟩

/-- The next token and what stands behind it are what they are. -/
theorem Next.unique {t' : Token} {rest' : List Lexeme} (h : Next ts t rest)
    (h' : Next ts t' rest') : t = t' ∧ rest = rest' := by
  obtain ⟨l, rfl, rfl⟩ := h
  exact next_cons.1 h'

/-- The empty word takes nothing. -/
theorem spells_nil : Spells [] ts rest ↔ ts = rest := by
  constructor
  · rintro ⟨us, hw, rfl⟩
    rw [List.map_eq_nil_iff.1 hw]
    rfl
  · rintro rfl
    exact ⟨[], rfl, rfl⟩

/-- A word takes its first token, and then the others. -/
theorem spells_cons {w : List Token} :
    Spells (t :: w) ts rest ↔ ∃ mid, Next ts t mid ∧ Spells w mid rest := by
  constructor
  · rintro ⟨us, hw, rfl⟩
    obtain ⟨l, us, rfl, hl, hw⟩ := List.map_eq_cons_iff.1 hw
    exact ⟨us ++ rest, ⟨l, hl, rfl⟩, us, hw, rfl⟩
  · rintro ⟨mid, ⟨l, hl, rfl⟩, us, hw, rfl⟩
    exact ⟨l :: us, by rw [List.map_cons, hl, hw], rfl⟩

/-- A word in two parts takes one part after the other, with a place between them. -/
theorem spells_append {v w : List Token} :
    Spells (v ++ w) ts rest ↔ ∃ mid, Spells v ts mid ∧ Spells w mid rest := by
  constructor
  · rintro ⟨us, hw, rfl⟩
    obtain ⟨us, us', rfl, hv, hw⟩ := List.map_eq_append_iff.1 hw
    exact ⟨us' ++ rest, ⟨us, hv, List.append_assoc ..⟩, us', hw, rfl⟩
  · rintro ⟨mid, ⟨us, hv, rfl⟩, us', hw, rfl⟩
    exact ⟨us ++ us', by rw [List.map_append, hv, hw], (List.append_assoc ..).symm⟩

/-- A word of one token is this token. -/
theorem spells_singleton : Spells [t] ts rest ↔ Next ts t rest := by
  rw [spells_cons]
  constructor
  · rintro ⟨mid, ht, hmid⟩
    exact spells_nil.1 hmid ▸ ht
  · exact fun ht => ⟨rest, ht, spells_nil.2 rfl⟩

/-- A word with a last token, as for a bracket that closes. -/
theorem spells_concat {w : List Token} :
    Spells (w ++ [t]) ts rest ↔ ∃ mid, Spells w ts mid ∧ Next mid t rest := by
  rw [spells_append]
  exact exists_congr fun mid => and_congr_right fun _ => spells_singleton

/-! ## The next lexeme

  Every choice of the grammar looks at one token.  `operator?` accepts a kind of token and says
  which one it was, `accept?` accepts one token, and `expect` fails without it.  In each law the
  case in which the token is missing is an alternative of its own, because a reader that goes on
  without it must know that it was not there. -/

/-- No operator is found exactly when the next token, if there is one, is none. -/
theorem operator?_eq_none {f : Token → Option α} :
    operator? f ts = none ↔ ∀ t mid, Next ts t mid → f t = none := by
  cases ts with
  | nil => simp [operator?, takeFirst?, Next]
  | cons l ls => simp [operator?, takeFirst?, next_cons]

/-- An operator is found exactly when the next token is a sign of it. -/
theorem operator?_eq_some {f : Token → Option α} {o : Taken Lexeme α ts.length} :
    operator? f ts = some o ↔ ∃ t, Next ts t o.rest ∧ f t = some o.value := by
  cases ts with
  | nil => simp [operator?, takeFirst?, Next]
  | cons l ls =>
    obtain ⟨v, r, hr⟩ := o
    cases hl : f l.token with
    | none => simp [operator?, takeFirst?, next_cons, hl]
    | some a =>
      simp only [operator?, takeFirst?, hl, next_cons, Option.map_some, Option.some.injEq,
        Taken.mk.injEq]
      constructor
      · rintro ⟨rfl, rfl⟩
        exact ⟨l.token, ⟨rfl, rfl⟩, hl⟩
      · rintro ⟨t, ⟨rfl, rfl⟩, hv⟩
        exact ⟨Option.some.inj (hl.symm.trans hv), rfl⟩

/-- A reader that goes on behind an operator, if one comes next.  Its two branches have laws of
    their own (`hno` and `hyes`), and what the whole reads is told by the next token, whatever
    `operator?` gave.  The alternative without an operator says so, since a looser level goes on
    only where a tighter one has stopped. -/
theorem reads_operator {f : Token → Option α} {x : Except SyntaxError (Taken Lexeme β n)}
    {P : Prop} {Q : α → List Lexeme → Prop}
    (hno : operator? f ts = none → (Reads x b rest ↔ P))
    (hyes : ∀ o, operator? f ts = some o → (Reads x b rest ↔ Q o.value o.rest)) :
    Reads x b rest ↔ ((∀ t mid, Next ts t mid → f t = none) ∧ P) ∨
      ∃ t a mid, Next ts t mid ∧ f t = some a ∧ Q a mid := by
  cases ho : operator? f ts with
  | none =>
    have hnone := operator?_eq_none.1 ho
    constructor
    · exact fun h => Or.inl ⟨hnone, (hno ho).1 h⟩
    · rintro (⟨-, h⟩ | ⟨t, a, mid, ht, hf, -⟩)
      · exact (hno ho).2 h
      · rw [hnone t mid ht] at hf
        exact absurd hf (by simp)
  | some o =>
    obtain ⟨t, ht, hf⟩ := operator?_eq_some.1 ho
    constructor
    · exact fun h => Or.inr ⟨t, o.value, o.rest, ht, hf, (hyes o ho).1 h⟩
    · rintro (⟨h, -⟩ | ⟨t', a, mid, ht', hf', h⟩)
      · rw [h t o.rest ht] at hf
        exact absurd hf (by simp)
      · obtain ⟨rfl, rfl⟩ := ht.unique ht'
        obtain rfl := Option.some.inj (hf.symm.trans hf')
        exact (hyes o ho).2 h

/-- A token is not accepted exactly when it does not come next. -/
theorem accept?_eq_none : accept? t ts = none ↔ NotNext ts t := by
  cases ts with
  | nil => simp [accept?, takeFirst?, NotNext, Next]
  | cons l ls => simp [accept?, takeFirst?, NotNext, next_cons]

/-- A token that is accepted came next. -/
theorem next_of_accept? {o : Taken Lexeme Unit ts.length} (h : accept? t ts = some o) :
    Next ts t o.rest := by
  cases ts with
  | nil => simp [accept?, takeFirst?] at h
  | cons l ls =>
    by_cases hl : l.token = t
    · simp only [accept?, takeFirst?, if_pos hl, Option.map_some, Option.some.injEq] at h
      obtain rfl := h
      exact next_cons.2 ⟨hl, rfl⟩
    · simp [accept?, takeFirst?, hl] at h

/-- A reader that goes on behind the token `t`, if it comes next: the same law for one token. -/
theorem reads_accept {x : Except SyntaxError (Taken Lexeme β n)} {P : Prop}
    {Q : List Lexeme → Prop} (hno : accept? t ts = none → (Reads x b rest ↔ P))
    (hyes : ∀ o, accept? t ts = some o → (Reads x b rest ↔ Q o.rest)) :
    Reads x b rest ↔ (NotNext ts t ∧ P) ∨ ∃ mid, Next ts t mid ∧ Q mid := by
  cases ho : accept? t ts with
  | none =>
    have hnone := accept?_eq_none.1 ho
    constructor
    · exact fun h => Or.inl ⟨hnone, (hno ho).1 h⟩
    · rintro (⟨-, h⟩ | ⟨mid, ht, -⟩)
      · exact (hno ho).2 h
      · exact absurd ht (hnone mid)
  | some o =>
    have ht := next_of_accept? ho
    constructor
    · exact fun h => Or.inr ⟨o.rest, ht, (hyes o ho).1 h⟩
    · rintro (⟨hnone, -⟩ | ⟨mid, ht', h⟩)
      · exact absurd ht (hnone o.rest)
      · obtain ⟨-, rfl⟩ := ht.unique ht'
        exact (hyes o ho).2 h

/-- A reader that fails if the token `t` does not come next. -/
theorem reads_expect {fault : Option LexError} :
    Reads (expect fault t ts) () rest ↔ Next ts t rest := by
  have h : Reads (expect fault t ts) () rest ↔
      (NotNext ts t ∧ False) ∨ ∃ mid, Next ts t mid ∧ mid = rest := by
    refine reads_accept (fun h => ?_) (fun o h => ?_)
    · rw [expect, h]
      exact iff_of_false not_reads_error id
    · rw [expect, h]
      exact reads_ok.trans (and_iff_right rfl)
  rw [h]
  constructor
  · rintro (⟨-, hfalse⟩ | ⟨mid, ht, rfl⟩)
    · exact hfalse.elim
    · exact ht
  · exact fun ht => Or.inr ⟨rest, ht, rfl⟩

/-- A reader whose last step is to take the token `t`.  Its value was known before, so all that the
    token adds is that it stands there. -/
theorem reads_close {fault : Option LexError} {c : β}
    {g : Taken Lexeme Unit ts.length → Taken Lexeme β n}
    (h : ∀ y, (g y).value = c ∧ (g y).rest = y.rest) :
    Reads ((expect fault t ts).map g) b rest ↔ Next ts t rest ∧ c = b := by
  rw [reads_map (f := fun _ => c) h]
  constructor
  · rintro ⟨a, ha, hc⟩
    exact ⟨reads_expect.1 ha, hc⟩
  · exact fun ⟨ht, hc⟩ => ⟨(), reads_expect.2 ht, hc⟩

/-- A reader that goes on only if no lexeme is left, as for a whole query: what stands behind a
    query makes it an error, so it is read to its end or not at all. -/
theorem reads_all {x : Except SyntaxError (Taken Lexeme α n)}
    {f : Taken Lexeme α n → Except SyntaxError α}
    (hend : ∀ y : Taken Lexeme α n, y.rest = [] → f y = .ok y.value)
    (hmore : ∀ (y : Taken Lexeme α n) (l : Lexeme) (ls : List Lexeme), y.rest = l :: ls →
      ∃ cause, f y = .error cause) :
    (x >>= f) = .ok a ↔ Reads x a [] := by
  cases x with
  | error cause =>
    exact iff_of_false (fun h => absurd (show Except.error cause = .ok a from h) (by simp))
      not_reads_error
  | ok y =>
    show f y = .ok a ↔ _
    rw [reads_ok]
    cases hy : y.rest with
    | nil =>
      rw [hend y hy]
      exact Except.ok.injEq y.value a ▸ (and_iff_left rfl).symm
    | cons l ls =>
      obtain ⟨cause, hf⟩ := hmore y l ls hy
      rw [hf]
      exact iff_of_false (by simp) (by simp)

end

/-! ## Steps

  A step has two parts that look far ahead: what stands in brackets may start with an integer, which
  is an index or the first bound of a slice, and a bound may be missing.  The law of `brackets` has
  one alternative for each kind of token that can stand behind the bracket; the integers are told
  from the others by their first token (`startsInteger`). -/

section

variable {ts rest : List Lexeme} {e : Expr}

/-- A reader of one token that stands for an integer.  Where it is missing the readers report
    different errors, of which only that they are errors matters here. -/
theorem reads_index {i : Int} {n : Nat} {x : Except SyntaxError (Taken Lexeme Int n)}
    (hno : operator? index? ts = none → ∃ cause, x = .error cause)
    (hyes : ∀ o, operator? index? ts = some o →
      ∃ y, x = .ok y ∧ y.value = o.value ∧ y.rest = o.rest) :
    Reads x i rest ↔ ∃ t, Next ts t rest ∧ index? t = some i := by
  have hread : Reads x i rest ↔ ((∀ t mid, Next ts t mid → index? t = none) ∧ False) ∨
      ∃ t k mid, Next ts t mid ∧ index? t = some k ∧ k = i ∧ mid = rest := by
    refine reads_operator (f := index?) (fun h => ?_) fun o h => ?_
    · obtain ⟨cause, rfl⟩ := hno h
      exact iff_of_false not_reads_error id
    · obtain ⟨y, rfl, hvalue, hrest⟩ := hyes o h
      rw [reads_ok, hvalue, hrest]
  rw [hread]
  constructor
  · rintro (⟨-, hfalse⟩ | ⟨t, k, mid, ht, hk, rfl, rfl⟩)
    · exact hfalse.elim
    · exact ⟨t, ht, hk⟩
  · rintro ⟨t, ht, hk⟩
    exact Or.inr ⟨t, i, rest, ht, hk, rfl, rfl⟩

/-- An integer is one number token, or a minus sign and one number token. -/
theorem reads_integer {i : Int} :
    Reads (integer none ts) i rest ↔
      (NotNext ts .minus ∧ ∃ t, Next ts t rest ∧ index? t = some i) ∨
        ∃ mid, Next ts .minus mid ∧ ∃ k, (∃ t, Next mid t rest ∧ index? t = some k) ∧ -k = i := by
  rw [integer]
  refine reads_accept (fun h => ?_) fun minus h => ?_
  · simp only [h]
    exact reads_index (fun h => ⟨_, by rw [h]⟩) fun o h => ⟨o, by rw [h], rfl, rfl⟩
  · simp only [h]
    refine Iff.trans (reads_map (f := fun k : Int => -k) fun _ => ⟨rfl, rfl⟩) ?_
    exact exists_congr fun k => and_congr_left'
      (reads_index (fun h => ⟨_, by rw [h]⟩) fun o h => ⟨o, by rw [h], rfl, rfl⟩)

/-- A bound is an integer, or missing where a bracket closes; the bracket is only looked at. -/
theorem reads_bound {b : Option Int} :
    Reads (bound none ts) b rest ↔
      (NotNext ts .rightBracket ∧ ∃ i, Reads (integer none ts) i rest ∧ some i = b) ∨
        ∃ mid, Next ts .rightBracket mid ∧ none = b ∧ ts = rest := by
  rw [bound]
  refine reads_accept (fun h => ?_) fun close h => ?_
  · rw [h]
    exact reads_map fun _ => ⟨rfl, rfl⟩
  · rw [h]
    exact reads_ok

/-- Behind its colon a slice has a bound and a closing bracket. -/
theorem reads_sliceEnd {start : Option Int} :
    Reads (sliceEnd none start ts) e rest ↔ ∃ stop mid, Reads (bound none ts) stop mid ∧
      Next mid .rightBracket rest ∧ .slice start stop = e := by
  rw [sliceEnd]
  exact reads_bind fun stop => reads_close fun _ => ⟨rfl, rfl⟩

/-- Behind an integer a bracket closes, and it was an index, or a colon comes, and it was a
    bound. -/
theorem reads_indexOrSlice :
    Reads (brackets.indexOrSlice none ts) e rest ↔ ∃ i mid, Reads (integer none ts) i mid ∧
      ((NotNext mid .colon ∧ Next mid .rightBracket rest ∧ .index i = e) ∨
        ∃ mid', Next mid .colon mid' ∧ Reads (sliceEnd none (some i) mid') e rest) := by
  rw [brackets.indexOrSlice]
  refine reads_bind fun start => reads_accept (fun h => ?_) fun colon h => ?_
  · rw [h]
    exact reads_close fun _ => ⟨rfl, rfl⟩
  · rw [h]
    exact reads_same fun _ => ⟨rfl, rfl⟩

/-- The tokens that an integer starts with. -/
def startsInteger : Token → Bool
  | .number _ => true
  | .minus => true
  | _ => false

/-- What stands behind an opening bracket, by its first token: the bracket that closes, a colon, a
    string, or the start of an integer.  The four alternatives exclude each other, because a token
    is of one kind. -/
theorem reads_brackets :
    Reads (brackets none ts) e rest ↔
      (Next ts .rightBracket rest ∧ .iterate = e) ∨
      (∃ mid, Next ts .colon mid ∧ Reads (sliceEnd none none mid) e rest) ∨
      (∃ name mid, Next ts (.string name) mid ∧ Next mid .rightBracket rest ∧ .field name = e) ∨
      ∃ t mid, Next ts t mid ∧ startsInteger t = true ∧
        Reads (brackets.indexOrSlice none ts) e rest := by
  cases ts with
  | nil =>
    refine iff_of_false not_reads_error ?_
    simp [Next]
  | cons l ls =>
    obtain ⟨t, offset, stop⟩ := l
    cases t with
    | rightBracket =>
      simp only [brackets, reads_ok, next_cons, startsInteger]
      simp [and_comm]
    | colon =>
      have h : Reads (brackets none (⟨.colon, offset, stop⟩ :: ls)) e rest ↔
          Reads (sliceEnd none none ls) e rest := reads_same fun _ => ⟨rfl, rfl⟩
      rw [h]
      simp [next_cons, startsInteger]
    | string name =>
      have h : Reads (brackets none (⟨.string name, offset, stop⟩ :: ls)) e rest ↔
          Next ls .rightBracket rest ∧ .field name = e := reads_close fun _ => ⟨rfl, rfl⟩
      rw [h]
      simp [next_cons, startsInteger, and_assoc]
    | number n => simp [brackets, next_cons, startsInteger]
    | minus => simp [brackets, next_cons, startsInteger]
    | _ =>
      refine iff_of_false not_reads_error ?_
      simp [next_cons, startsInteger]

/-- One step has been read and `rest` is left.  A reader of steps has three ends, a step, none and
    an error, and this is the first of them. -/
def ReadsStep (ts : List Lexeme) (e : Expr) (rest : List Lexeme) : Prop :=
  ∃ x, step? none ts = .ok (some x) ∧ x.value = e ∧ x.rest = rest

/-- A step takes lexemes away, so a walk comes to an end. -/
theorem ReadsStep.shorter (h : ReadsStep ts e rest) : rest.length < ts.length := by
  obtain ⟨x, -, -, rfl⟩ := h
  exact x.shorter

/-- The tokens that a step starts with. -/
def startsStep : Token → Bool
  | .field _ => true
  | .leftBracket => true
  | .dot => true
  | _ => false

/-- A step in brackets is what stands in the brackets.  The bound on what is left is another one for
    each form of a step, and only the bound changes. -/
theorem readsStep_of_brackets {m n : Nat} {x : Except SyntaxError (Taken Lexeme Expr m)}
    {g : Taken Lexeme Expr m → Taken Lexeme Expr n}
    (h : ∀ y, (g y).value = y.value ∧ (g y).rest = y.rest) :
    (∃ y, (x.map fun b => some (g b)) = .ok (some y) ∧ y.value = e ∧ y.rest = rest) ↔
      Reads x e rest := by
  cases x with
  | error cause =>
    refine iff_of_false ?_ not_reads_error
    rintro ⟨y, hy, -⟩
    exact absurd hy (by simp [Except.map])
  | ok b =>
    rw [reads_ok]
    constructor
    · rintro ⟨y, hy, rfl, rfl⟩
      obtain rfl := Option.some.inj (Except.ok.inj hy)
      exact ⟨(h b).1.symm, (h b).2.symm⟩
    · rintro ⟨hv, hr⟩
      exact ⟨g b, rfl, (h b).1.trans hv, (h b).2.trans hr⟩

/-- A step is a field, or brackets with or without a dot in front.  A dot without brackets behind it
    is no step, although it starts one. -/
theorem readsStep_iff :
    ReadsStep ts e rest ↔
      (∃ name, Next ts (.field name) rest ∧ .field name = e) ∨
      (∃ mid, Next ts .leftBracket mid ∧ Reads (brackets none mid) e rest) ∨
      ∃ mid mid', Next ts .dot mid ∧ Next mid .leftBracket mid' ∧
        Reads (brackets none mid') e rest := by
  unfold ReadsStep
  cases ts with
  | nil => simp [step?, Next]
  | cons l ls =>
    obtain ⟨t, offset, stop⟩ := l
    cases t with
    | field name => simp [step?, next_cons, and_assoc, and_comm]
    | leftBracket =>
      refine Iff.trans (readsStep_of_brackets fun _ => ⟨rfl, rfl⟩) ?_
      simp [next_cons]
    | dot =>
      simp only [step?, next_cons]
      cases ho : accept? .leftBracket ls with
      | none =>
        have hnone := accept?_eq_none.1 ho
        simp [NotNext] at hnone
        simp [hnone]
      | some o =>
        have ht := next_of_accept? ho
        refine Iff.trans (readsStep_of_brackets fun _ => ⟨rfl, rfl⟩) ?_
        constructor
        · exact fun h => Or.inr (Or.inr ⟨ls, o.rest, ⟨trivial, rfl⟩, ht, h⟩)
        · rintro (⟨name, ⟨h, -⟩, -⟩ | ⟨mid, ⟨h, -⟩, -⟩ | ⟨mid, mid', ⟨-, rfl⟩, ht', h⟩)
          · exact absurd h (by simp)
          · exact absurd h (by simp)
          · obtain ⟨-, rfl⟩ := ht.unique ht'
            exact h
    | _ => simp [step?, next_cons]

/-- No step is read exactly when the next token starts none.  A token that starts a step commits the
    reader: if the step is not complete, the query is no query. -/
theorem step?_eq_none :
    step? none ts = .ok none ↔ ∀ t mid, Next ts t mid → startsStep t = false := by
  cases ts with
  | nil => simp [step?, Next]
  | cons l ls =>
    obtain ⟨t, offset, stop⟩ := l
    cases t with
    | leftBracket =>
      simp only [step?, next_cons]
      cases brackets none ls with
      | error cause => simp [Except.map, startsStep]
      | ok b => simp [Except.map, startsStep]
    | dot =>
      simp only [step?, next_cons]
      cases accept? .leftBracket ls with
      | none => simp [startsStep]
      | some o =>
        cases hb : brackets none o.rest with
        | error cause => simp [hb, Except.map, startsStep]
        | ok b => simp [hb, Except.map, startsStep]
    | _ => simp [step?, next_cons, startsStep]

/-- A walk goes on as long as a step comes next, with the expression so far in hand.  It ends only
    where the next token starts no step: an incomplete step does not end a walk, it is an error. -/
theorem reads_steps {l : Expr} :
    Reads (steps none l ts) e rest ↔
      ((∀ t mid, Next ts t mid → startsStep t = false) ∧ l = e ∧ ts = rest) ∨
        ∃ step mid, ReadsStep ts step mid ∧ Reads (steps none (stepOf l step) mid) e rest := by
  rw [steps]
  -- a fault in a step is a fault of the walk, also where a step only might have been
  cases hs : step? none ts with
  | error cause =>
    refine iff_of_false not_reads_error ?_
    rintro (⟨h, -⟩ | ⟨step, mid, ⟨x, hx, -⟩, -⟩)
    · exact absurd ((step?_eq_none.2 h).symm.trans hs) (by simp)
    · exact absurd (hx.symm.trans hs) (by simp)
  | ok o =>
    cases o with
    | none =>
      have hnone := step?_eq_none.1 hs
      refine Iff.trans reads_ok ?_
      constructor
      · exact fun h => Or.inl ⟨hnone, h⟩
      · rintro (⟨-, h⟩ | ⟨step, mid, ⟨x, hx, -⟩, -⟩)
        · exact h
        · exact absurd (hx.symm.trans hs) (by simp)
    | some x =>
      refine Iff.trans (reads_same fun _ => ⟨rfl, rfl⟩) ?_
      constructor
      · exact fun h => Or.inr ⟨x.value, x.rest, ⟨x, hs, rfl, rfl⟩, h⟩
      · rintro (⟨h, -⟩ | ⟨step, mid, ⟨x', hx, rfl, rfl⟩, h⟩)
        · exact absurd ((step?_eq_none.2 h).symm.trans hs) (by simp)
        · obtain rfl := Option.some.inj (Except.ok.inj (hx.symm.trans hs))
          exact h

end

/-! ## Expressions

  One law for each rule, from loose to tight.  A level that may go on reads the next tighter level
  first and then looks for its operator, so every law has the same form: an expression of the
  tighter level, and then either no operator and nothing more, or the operator and what it joins. -/

section

variable {ts rest : List Lexeme} {e l : Expr}

/-- A pipe is a list, with another pipe behind the bar if there is one: it goes to the right. -/
theorem reads_pipe :
    Reads (pipe none ts) e rest ↔ ∃ l mid, Reads (commas none ts) l mid ∧
      ((NotNext mid .pipe ∧ l = e ∧ mid = rest) ∨
        ∃ mid', Next mid .pipe mid' ∧ ∃ r, Reads (pipe none mid') r rest ∧ pipeOf l r = e) := by
  rw [pipe]
  refine reads_bind fun left => reads_accept (fun h => ?_) fun bar h => ?_
  · rw [h]
    exact reads_ok
  · rw [h]
    exact reads_map fun _ => ⟨rfl, rfl⟩

/-- A list is an assignment with more of them behind it. -/
theorem reads_commas :
    Reads (commas none ts) e rest ↔ ∃ l mid, Reads (assignment none ts) l mid ∧
      Reads (moreCommas none l mid) e rest := by
  rw [commas]
  exact reads_bind fun first => reads_same fun _ => ⟨rfl, rfl⟩

/-- A list goes on behind a comma with what it has so far: it goes to the left. -/
theorem reads_moreCommas :
    Reads (moreCommas none l ts) e rest ↔ (NotNext ts .comma ∧ l = e ∧ ts = rest) ∨
      ∃ mid, Next ts .comma mid ∧ ∃ r mid', Reads (assignment none mid) r mid' ∧
        Reads (moreCommas none (.comma l r) mid') e rest := by
  rw [moreCommas]
  refine reads_accept (fun h => ?_) fun comma h => ?_
  · rw [h]
    exact reads_ok
  · rw [h]
    exact reads_bind fun right => reads_same fun _ => ⟨rfl, rfl⟩

/-- A reader that goes on with the path of a target.  An expression that walks no path is an error
    before anything behind it is read. -/
theorem reads_target {n : Nat} {operation : PathOperation}
    {g : Path → Except SyntaxError (Taken Lexeme Expr n)} {P : Path → Prop}
    (h : ∀ p, Reads (g p) e rest ↔ P p) :
    Reads (targetPath operation l >>= g) e rest ↔ ∃ p, l.path? = .ok p ∧ P p := by
  unfold targetPath
  cases hp : l.path? with
  | error cause =>
    refine iff_of_false not_reads_error ?_
    simp
  | ok p =>
    simp only [Except.ok.injEq, exists_eq_left']
    exact h p

/-- An assignment has at most one sign, and what stands in front of the sign walks a path.  Behind
    the sign stands an alternative and not an assignment, so a second sign is left over. -/
theorem reads_assignment :
    Reads (assignment none ts) e rest ↔ ∃ l mid, Reads (alternative none ts) l mid ∧
      (((∀ t mid', Next mid t mid' → assignOp? t = none) ∧ l = e ∧ mid = rest) ∨
        ∃ t op mid', Next mid t mid' ∧ assignOp? t = some op ∧ ∃ p, l.path? = .ok p ∧
          ∃ r, Reads (alternative none mid') r rest ∧ assignOf op p r = e) := by
  rw [assignment]
  refine reads_bind fun left => reads_operator (fun h => ?_) fun op h => ?_
  · rw [h]
    exact reads_ok
  · rw [h]
    exact reads_target fun p => reads_map fun _ => ⟨rfl, rfl⟩

/-- An alternative goes to the right, as a pipe does. -/
theorem reads_alternative :
    Reads (alternative none ts) e rest ↔ ∃ l mid, Reads (comparison none ts) l mid ∧
      ((NotNext mid .alternative ∧ l = e ∧ mid = rest) ∨
        ∃ mid', Next mid .alternative mid' ∧
          ∃ r, Reads (alternative none mid') r rest ∧ .alternative l r = e) := by
  rw [alternative]
  refine reads_bind fun left => reads_accept (fun h => ?_) fun op h => ?_
  · rw [h]
    exact reads_ok
  · rw [h]
    exact reads_map fun _ => ⟨rfl, rfl⟩

/-- A comparison has at most one sign; it does not chain. -/
theorem reads_comparison :
    Reads (comparison none ts) e rest ↔ ∃ l mid, Reads (sum none ts) l mid ∧
      (((∀ t mid', Next mid t mid' → compareOp? t = none) ∧ l = e ∧ mid = rest) ∨
        ∃ t op mid', Next mid t mid' ∧ compareOp? t = some op ∧
          ∃ r, Reads (sum none mid') r rest ∧ .compare op l r = e) := by
  rw [comparison]
  refine reads_bind fun left => reads_operator (fun h => ?_) fun op h => ?_
  · rw [h]
    exact reads_ok
  · rw [h]
    exact reads_map fun _ => ⟨rfl, rfl⟩

/-- A sum is a product and more of them.  Which tree it makes is decided when all are read: with a
    string among its terms a row of `+` signs is a concatenation. -/
theorem reads_sum :
    Reads (sum none ts) e rest ↔ ∃ first mid, Reads (product none ts) first mid ∧
      ∃ more, Reads (moreSum none mid) more rest ∧ sumOf first more = e := by
  rw [sum]
  exact reads_bind fun first => reads_map fun _ => ⟨rfl, rfl⟩

/-- The terms of a sum are collected with their signs, and not put together on the way. -/
theorem reads_moreSum {more : List (ArithOp × Expr)} :
    Reads (moreSum none ts) more rest ↔
      ((∀ t mid, Next ts t mid → sumOp? t = none) ∧ [] = more ∧ ts = rest) ∨
        ∃ t op mid, Next ts t mid ∧ sumOp? t = some op ∧ ∃ r mid', Reads (product none mid) r mid' ∧
          ∃ more', Reads (moreSum none mid') more' rest ∧ (op, r) :: more' = more := by
  rw [moreSum]
  refine reads_operator (fun h => ?_) fun op h => ?_
  · rw [h]
    exact reads_ok
  · rw [h]
    exact reads_bind fun right => reads_map fun _ => ⟨rfl, rfl⟩

/-- A product is an operand with more of them behind it. -/
theorem reads_product :
    Reads (product none ts) e rest ↔ ∃ l mid, Reads (operand none ts) l mid ∧
      Reads (moreProduct none l mid) e rest := by
  rw [product]
  exact reads_bind fun first => reads_same fun _ => ⟨rfl, rfl⟩

/-- A product goes on behind its sign with what it has so far: it goes to the left. -/
theorem reads_moreProduct :
    Reads (moreProduct none l ts) e rest ↔
      ((∀ t mid, Next ts t mid → productOp? t = none) ∧ l = e ∧ ts = rest) ∨
        ∃ t op mid, Next ts t mid ∧ productOp? t = some op ∧
          ∃ r mid', Reads (operand none mid) r mid' ∧
            Reads (moreProduct none (.arithmetic op l r) mid') e rest := by
  rw [moreProduct]
  refine reads_operator (fun h => ?_) fun op h => ?_
  · rw [h]
    exact reads_ok
  · rw [h]
    exact reads_bind fun right => reads_same fun _ => ⟨rfl, rfl⟩

/-- An operand is an atom with its steps, or an operand behind a minus sign. -/
theorem reads_operand :
    Reads (operand none ts) e rest ↔
      (NotNext ts .minus ∧ ∃ l mid, Reads (atom none ts) l mid ∧ Reads (steps none l mid) e rest) ∨
        ∃ mid, Next ts .minus mid ∧ ∃ r, Reads (operand none mid) r rest ∧ negated r = e := by
  rw [operand]
  refine reads_accept (fun h => ?_) fun minus h => ?_
  · rw [h]
    exact reads_bind fun first => reads_same fun _ => ⟨rfl, rfl⟩
  · rw [h]
    exact reads_map fun _ => ⟨rfl, rfl⟩

/-! ### Atoms

  What an atom is can be told from its first token, except that a dot and an opening bracket need
  one token more.  The law lists all of them; the atoms of one token are in one case
  (`literal?`). -/

/-- The atoms that are one token. -/
def literal? : Token → Option Expr
  | .dotDot => some .recursiveDescent
  | .field name => some (.field name)
  | .number n => some (.literal (.number n))
  | .string s => some (.literal (.string s))
  | .boolean b => some (.literal (.boolean b))
  | .null => some (.literal .null)
  | _ => none

/-- A call is accepted if the number of its arguments is right and, for `del`, if its argument walks
    a path.  The checks stand behind the arguments, so they are made of a call that is complete. -/
theorem callOf_eq_ok {f : Builtin} {args : List Expr} :
    callOf f args = .ok e ↔ args.length = f.arity ∧
      (f = .del → ∀ target, args = [target] → ∃ p, target.path? = .ok p) ∧ .call f args = e := by
  unfold callOf
  split
  · rename_i hlen
    simp [hlen]
  · rename_i hlen
    split
    · rename_i target
      unfold targetPath
      cases hp : target.path? with
      | error cause => simp [hp, bind, Except.bind]
      | ok p => simp_all [bind, Except.bind, pure, Except.pure]
    · rename_i hdel
      simp_all

/-- Arguments stand in parentheses; without an opening one there are none. -/
theorem reads_arguments {args : List Expr} :
    Reads (arguments none ts) args rest ↔ (NotNext ts .leftParen ∧ [] = args ∧ ts = rest) ∨
      ∃ mid, Next ts .leftParen mid ∧ ∃ e mid', Reads (pipe none mid) e mid' ∧
        Next mid' .rightParen rest ∧ [e] = args := by
  rw [arguments]
  refine reads_accept (fun h => ?_) fun paren h => ?_
  · rw [h]
    exact reads_ok
  · rw [h]
    exact reads_bind fun inner => reads_close fun _ => ⟨rfl, rfl⟩

/-- A call that is checked once its arguments are read.  The check reads nothing. -/
theorem reads_checked {f : Builtin} {args : Taken Lexeme (List Expr) (ts.length + 1)} :
    Reads (do
      let _ ← settle none args.rest
      let e ← callOf f args.value
      return args.map fun _ => e) e rest ↔ callOf f args.value = .ok e ∧ args.rest = rest := by
  have hsettle : settle none args.rest = .ok () := by
    cases args.rest with
    | nil => rfl
    | cons l ls => rfl
  rw [hsettle]
  cases hcall : callOf f args.value with
  | error cause =>
    refine iff_of_false not_reads_error ?_
    simp
  | ok e' =>
    refine Iff.trans reads_ok ?_
    simp

/-- An atom is a literal, a dot, a group, a collection or a call.  A bracket right behind the dot is
    read with it, as a first step from the input; all other steps are read by the walk behind the
    atom. -/
theorem reads_atom :
    Reads (atom none ts) e rest ↔
      (∃ t, Next ts t rest ∧ literal? t = some e) ∨
      (∃ mid, Next ts .dot mid ∧ ((NotNext mid .leftBracket ∧ .identity = e ∧ mid = rest) ∨
        ∃ mid', Next mid .leftBracket mid' ∧ Reads (brackets none mid') e rest)) ∨
      (∃ mid, Next ts .leftParen mid ∧ ∃ inner mid', Reads (pipe none mid) inner mid' ∧
        Next mid' .rightParen rest ∧ inner = e) ∨
      (∃ mid, Next ts .leftBracket mid ∧
        ((NotNext mid .rightBracket ∧ ∃ inner mid', Reads (pipe none mid) inner mid' ∧
          Next mid' .rightBracket rest ∧ .collect inner = e) ∨
        ∃ mid', Next mid .rightBracket mid' ∧ .emptyCollection = e ∧ mid' = rest)) ∨
      ∃ name mid, Next ts (.identifier name) mid ∧ ∃ f, Builtin.ofName? name = some f ∧
        ∃ args, Reads (arguments none mid) args rest ∧ callOf f args = .ok e := by
  cases ts with
  | nil =>
    unfold atom
    refine iff_of_false not_reads_error ?_
    simp [Next]
  | cons l ls =>
    obtain ⟨t, offset, stop⟩ := l
    cases t with
    | dot =>
      have h : Reads (atom none (⟨.dot, offset, stop⟩ :: ls)) e rest ↔
          (NotNext ls .leftBracket ∧ .identity = e ∧ ls = rest) ∨
            ∃ mid, Next ls .leftBracket mid ∧ Reads (brackets none mid) e rest := by
        unfold atom
        refine reads_accept (fun h => ?_) fun bracket h => ?_
        · rw [h]
          exact reads_ok
        · rw [h]
          exact reads_same fun _ => ⟨rfl, rfl⟩
      rw [h]
      simp [next_cons, literal?]
    | leftParen =>
      have h : Reads (atom none (⟨.leftParen, offset, stop⟩ :: ls)) e rest ↔
          ∃ inner mid, Reads (pipe none ls) inner mid ∧ Next mid .rightParen rest ∧ inner = e := by
        unfold atom
        exact reads_bind fun inner => reads_close fun _ => ⟨rfl, rfl⟩
      rw [h]
      simp [next_cons, literal?]
    | leftBracket =>
      have h : Reads (atom none (⟨.leftBracket, offset, stop⟩ :: ls)) e rest ↔
          (NotNext ls .rightBracket ∧ ∃ inner mid, Reads (pipe none ls) inner mid ∧
            Next mid .rightBracket rest ∧ .collect inner = e) ∨
          ∃ mid, Next ls .rightBracket mid ∧ .emptyCollection = e ∧ mid = rest := by
        unfold atom
        refine reads_accept (fun h => ?_) fun close h => ?_
        · rw [h]
          exact reads_bind fun inner => reads_close fun _ => ⟨rfl, rfl⟩
        · rw [h]
          exact reads_ok
      rw [h]
      simp [next_cons, literal?]
    | identifier name =>
      have h : Reads (atom none (⟨.identifier name, offset, stop⟩ :: ls)) e rest ↔
          ∃ f, Builtin.ofName? name = some f ∧ ∃ args mid, Reads (arguments none ls) args mid ∧
            callOf f args = .ok e ∧ mid = rest := by
        unfold atom
        cases hf : Builtin.ofName? name with
        | none =>
          refine iff_of_false not_reads_error ?_
          simp
        | some f =>
          simp only [Option.some.injEq, exists_eq_left']
          exact reads_bind fun args => reads_checked
      rw [h]
      simp [next_cons, literal?, and_assoc]
    | dotDot => simp [atom, reads_ok, next_cons, literal?, and_assoc, and_comm]
    | field name => simp [atom, reads_ok, next_cons, literal?, and_assoc, and_comm]
    | number n => simp [atom, reads_ok, next_cons, literal?, and_assoc, and_comm]
    | string s => simp [atom, reads_ok, next_cons, literal?, and_assoc, and_comm]
    | boolean b => simp [atom, reads_ok, next_cons, literal?, and_assoc, and_comm]
    | null => simp [atom, reads_ok, next_cons, literal?, and_assoc, and_comm]
    | _ =>
      unfold atom
      refine iff_of_false not_reads_error ?_
      simp [next_cons, literal?]

end

end BlockQuery.Grammar

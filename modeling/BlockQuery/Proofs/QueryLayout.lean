/-
  The layout of a query.

  A query that is read to its end is a row of segments, each a gap and the text of a token, and a
  last gap (`layOut`).  The tokens stand where their texts do (`lexemesFrom`).  Since a token is
  read from its own text, other gaps between the texts leave the tokens as they are; only where
  two texts would meet a gap must be.

  Both directions are inductions on the length of what is left: a text is taken apart into segments
  (`exists_segments`), and segments are put together and read again (`scanFrom_layOut`).  The first
  direction finds out that each token is read from its own text, and this is all that the second one
  is told about a segment (`Segment.Holds`).  A place in a query is counted from its start, as the
  length of the whole less the length of what is left, so the laws have the total length as a
  parameter.
-/
import BlockQuery.Proofs.Parsing
import BlockQuery.Proofs.TokenText

namespace BlockQuery.Lexeme

open Text

/-! ## Gaps

  A gap is described twice: as what the reader skips, and as blanks and comments.  That the first is
  the second is a recursion over the text (`startsWithGap`); that the second is skipped whole is a
  recursion over the description.  A comment at the end of a query need not end with a line feed,
  hence two kinds. -/

/-- A run of blanks and of comments, each up to the end of its line.  It may be empty. -/
inductive Gap : List Char → Prop
  | nil : Gap []
  | blank {c cs} : isBlank c = true → Gap cs → Gap (c :: cs)
  | comment {body cs} : '\n' ∉ body → Gap cs → Gap ('#' :: (body ++ '\n' :: cs))

/-- A gap at the end of a query, where a comment need not end. -/
inductive LastGap : List Char → Prop
  | gap {cs} : Gap cs → LastGap cs
  | comment {cs body} : Gap cs → '\n' ∉ body → LastGap (cs ++ '#' :: body)

variable {g cs : List Char}

/-- A gap starts with a blank or a comment, or it is empty. -/
theorem Gap.startsGap (h : Gap g) : StartsGap g := by
  cases h with
  | nil => simp [StartsGap]
  | blank hc _ => simpa [StartsGap] using Or.inl hc
  | comment _ _ => simp [StartsGap]

/-- So does the gap at the end. -/
theorem LastGap.startsGap (h : LastGap g) : StartsGap g := by
  cases h with
  | gap h => exact h.startsGap
  | @comment cs body h _ =>
    cases cs with
    | nil => simp [StartsGap]
    | cons c cs => exact h.startsGap

/-- One gap behind another is one gap. -/
theorem Gap.append (h : Gap g) (h' : Gap cs) : Gap (g ++ cs) := by
  induction h with
  | nil => exact h'
  | blank hc _ ih => exact .blank hc ih
  | @comment body more hbody _ ih =>
    rw [List.cons_append, List.append_assoc, List.cons_append]
    exact .comment hbody ih

/-- A last gap may have gaps in front. -/
theorem LastGap.append (h : Gap g) (h' : LastGap cs) : LastGap (g ++ cs) := by
  cases h' with
  | gap h' => exact .gap (h.append h')
  | comment h' hbody =>
    rw [← List.append_assoc]
    exact .comment (h.append h') hbody

/-- A comment ends with its line. -/
theorem skipComment_append {body : List Char} (h : '\n' ∉ body) (cs : List Char) :
    skipComment (body ++ '\n' :: cs) = skipGap cs := by
  induction body with
  | nil => rw [List.nil_append, skipComment, if_pos rfl]
  | cons c body ih =>
    rw [List.mem_cons, not_or] at h
    rw [List.cons_append, skipComment, if_neg (Ne.symm h.1), ih h.2]

/-- A comment that no line feed ends goes on to the end of the query. -/
theorem skipComment_of_not_mem {body : List Char} (h : '\n' ∉ body) : skipComment body = [] := by
  induction body with
  | nil => rfl
  | cons c body ih =>
    rw [List.mem_cons, not_or] at h
    rw [skipComment, if_neg (Ne.symm h.1), ih h.2]

/-- A hash sign starts a comment. -/
theorem skipGap_hash (cs : List Char) : skipGap ('#' :: cs) = skipComment cs := by
  rw [skipGap, if_neg (by decide), if_pos rfl]

/-- A gap is skipped whole, by recursion on the gap, and what stands behind it is then at the
    front. -/
theorem Gap.skip (h : Gap g) (cs : List Char) : skipGap (g ++ cs) = skipGap cs := by
  induction h with
  | nil => rfl
  | blank hc _ ih => rw [List.cons_append, skipGap, if_pos hc, ih]
  | comment hbody _ ih =>
    rw [List.cons_append, skipGap_hash, List.append_assoc, List.cons_append,
      skipComment_append hbody, ih]

/-- Behind the last gap there is nothing. -/
theorem LastGap.skip (h : LastGap g) : skipGap g = [] := by
  cases h with
  | gap h => simpa [skipGap] using h.skip []
  | comment h hbody => rw [h.skip, skipGap_hash, skipComment_of_not_mem hbody]

/-- Whether a text is a last gap, or a gap with the first character of a token behind it.  In both
    cases it says what the reader of gaps leaves. -/
def StartsWithGap (cs : List Char) : Prop :=
  (LastGap cs ∧ skipGap cs = []) ∨ ∃ g c rest, cs = g ++ c :: rest ∧ Gap g ∧
    skipGap cs = c :: rest ∧ isBlank c = false ∧ c ≠ '#'

/-- More may be put in front of a gap. -/
theorem StartsWithGap.append (hgap : Gap g) (h : StartsWithGap cs) : StartsWithGap (g ++ cs) := by
  rcases h with ⟨hlast, hskip⟩ | ⟨more, c, rest, rfl, hmore, hskip⟩
  · exact Or.inl ⟨.append hgap hlast, (hgap.skip cs).trans hskip⟩
  · refine Or.inr ⟨g ++ more, c, rest, (List.append_assoc ..).symm, hgap.append hmore, ?_⟩
    rwa [hgap.skip]

/-- Blanks and comments are taken off the front one by one, until a token starts.  The induction is
    on the length of the text, as a comment takes a whole line away at once. -/
theorem startsWithGap (cs : List Char) : StartsWithGap cs := by
  induction hn : cs.length using Nat.strong_induction_on generalizing cs with
  | _ n ih =>
    cases cs with
    | nil => exact Or.inl ⟨.gap .nil, rfl⟩
    | cons c cs =>
      rw [List.length_cons] at hn
      by_cases hblank : isBlank c = true
      · exact .append (g := [c]) (.blank hblank .nil) (ih cs.length (by omega) cs rfl)
      by_cases hhash : c = '#'
      · subst hhash
        by_cases hmem : '\n' ∈ cs
        · obtain ⟨body, behind, rfl, hbody⟩ := List.eq_append_cons_of_mem hmem
          have hshorter : behind.length < n := by
            rw [List.length_append, List.length_cons] at hn
            omega
          have hcomment := (ih _ hshorter behind rfl).append (.comment hbody .nil)
          rwa [List.cons_append, List.append_assoc, List.singleton_append] at hcomment
        · refine Or.inl ⟨@LastGap.comment [] cs .nil hmem, ?_⟩
          rw [skipGap_hash, skipComment_of_not_mem hmem]
      · refine Or.inr ⟨[], c, cs, rfl, .nil, ?_, by simpa using hblank, hhash⟩
        rw [skipGap, if_neg hblank, if_neg hhash]

/-! ## Segments

  A segment keeps the gap in front of its token apart from the text of the token, so that gaps can
  be exchanged.  The places of the tokens are computed from the lengths of both. -/

/-- A gap and the text of the token behind it. -/
structure Segment where
  gap : List Char
  text : List Char
  token : Token

/-- Whether a text is read as a token, whatever gap stands behind it.  It starts with no blank and
    no comment, so no gap takes a part of it. -/
def Segment.Holds (s : Segment) : Prop :=
  ∃ c own, s.text = c :: own ∧ isBlank c = false ∧ c ≠ '#' ∧
    ∀ gap, StartsGap gap → Reads (readToken c (own ++ gap)) s.token gap

/-- The text that segments and a last gap make. -/
def layOut : List Segment → List Char → List Char
  | [], last => last
  | s :: ss, last => s.gap ++ (s.text ++ layOut ss last)

/-- The tokens of segments in the places of their texts, from `offset` characters on.  A token has
    the place of its first character and the place behind its last. -/
def lexemesFrom (offset : Nat) : List Segment → List Lexeme
  | [] => []
  | s :: ss =>
      ⟨s.token, offset + s.gap.length, offset + s.gap.length + s.text.length⟩ ::
        lexemesFrom (offset + s.gap.length + s.text.length) ss

/-- The segments with other gaps. -/
def regapped : List Segment → List (List Char) → List Segment :=
  List.zipWith fun s g => { s with gap := g }

/-- One round of reading tokens: a gap is skipped, a token is read, and the round after it goes on
    with what is left. -/
theorem scanFrom_eq (total : Nat) (cs : List Char) :
    scanFrom total cs =
      match skipGap cs with
      | [] => ⟨[], none⟩
      | c :: rest =>
          match readToken c rest with
          | .error (fault, place) => ⟨[], some ⟨fault, total - place.length⟩⟩
          | .ok t =>
              ⟨⟨t.value, total - (rest.length + 1), total - t.rest.length⟩ ::
                (scanFrom total t.rest).list, (scanFrom total t.rest).fault⟩ := by
  have hnone : ∀ {xs : List Char}, takeFirst? some xs = none → xs = [] := by
    rintro (_ | ⟨x, xs⟩) h
    · rfl
    · cases h
  have hsome : ∀ {xs : List Char} {t}, takeFirst? some xs = some t → xs = t.value :: t.rest := by
    rintro (_ | ⟨x, xs⟩) t h
    · cases h
    · cases h
      rfl
  rw [scanFrom]
  split
  · rename_i h
    rw [hnone h]
  · rename_i c h
    have hskip := hsome h
    obtain ⟨c, rest, hshorter⟩ := c
    simp only [hskip]
    split
    · rename_i herror
      simp only [herror]
    · rename_i hok
      simp only [hok]

/-- A round that reads a token. -/
theorem scanFrom_token {c : Char} {t : Token} {own rest : List Char} (total : Nat)
    (hskip : skipGap cs = c :: own) (h : Reads (readToken c own) t rest) :
    scanFrom total cs =
      ⟨⟨t, total - (own.length + 1), total - rest.length⟩ :: (scanFrom total rest).list,
        (scanFrom total rest).fault⟩ := by
  obtain ⟨taken, htoken, rfl, rfl⟩ := h
  rw [scanFrom_eq, hskip]
  simp only [htoken]

/-- The last round, which finds nothing. -/
theorem scanFrom_last (total : Nat) (h : skipGap cs = []) : scanFrom total cs = ⟨[], none⟩ := by
  rw [scanFrom_eq, h]

/-! ## From a text to its segments and back

  The gaps between tokens need not be empty in the second direction, and in the first they may be:
  in `.a.b` no gap stands between two tokens that do not run into each other. -/

/-- A text that is read to its end is a row of segments, with its tokens in their places.  By
    induction on the length of what is left; each round finds one segment, and the last one finds
    the last gap. -/
theorem exists_segments {total : Nat} (h : (scanFrom total cs).fault = none)
    (htotal : cs.length ≤ total) :
    ∃ segments last, cs = layOut segments last ∧
      (scanFrom total cs).list = lexemesFrom (total - cs.length) segments ∧
      (∀ s ∈ segments, s.Holds ∧ Gap s.gap) ∧ LastGap last := by
  induction hn : cs.length using Nat.strong_induction_on generalizing cs with
  | _ n ih =>
    subst hn
    rcases startsWithGap cs with ⟨hlast, hskip⟩ | ⟨g, c, rest, hcs, hg, hskip, hblank, hhash⟩
    · exact ⟨[], cs, rfl, by rw [scanFrom_last total hskip]; rfl, by simp, hlast⟩
    · obtain ⟨t, behind, hread⟩ : ∃ t behind, Reads (readToken c rest) t behind := by
        cases htoken : readToken c rest with
        | error e =>
          rw [scanFrom_eq, hskip] at h
          simp only [htoken] at h
          cases h
        | ok t => exact ⟨t.value, t.rest, t, rfl, rfl, rfl⟩
      obtain ⟨own, rfl, hown⟩ := readsOwnText_token c rest t behind hread
      have hround := scanFrom_token total hskip hread
      rw [hround] at h
      have hlength : cs.length = g.length + (own.length + 1) + behind.length := by
        rw [hcs, List.length_append, List.length_cons, List.length_append]
        omega
      obtain ⟨segments, last, hmore, hlist, hholds, hlast⟩ :=
        ih behind.length (by omega) h (by omega) rfl
      refine ⟨⟨g, c :: own, t⟩ :: segments, last, ?_, ?_, ?_, hlast⟩
      · rw [layOut, ← hmore, hcs, List.cons_append]
      · rw [hround, hlist, lexemesFrom, List.length_cons]
        have hstart : total - cs.length + g.length = total - ((own ++ behind).length + 1) := by
          rw [List.length_append]
          omega
        have hstop : total - cs.length + g.length + (own.length + 1) = total - behind.length := by
          omega
        rw [hstop, hstart]
      · exact List.forall_mem_cons.2 ⟨⟨⟨c, own, rfl, hblank, hhash, hown⟩, hg⟩, hholds⟩

/-- Segments with gaps between them are read as their tokens.  By induction on the segments: behind
    each token stands a gap that is not empty, or the last one, so the token ends there. -/
theorem scanFrom_layOut {segments : List Segment} {last : List Char} {total : Nat}
    (hholds : ∀ s ∈ segments, s.Holds) (hgaps : ∀ s ∈ segments, Gap s.gap)
    (hbetween : ∀ s ∈ segments.tail, s.gap ≠ []) (hlast : LastGap last)
    (htotal : (layOut segments last).length ≤ total) :
    scanFrom total (layOut segments last) =
      ⟨lexemesFrom (total - (layOut segments last).length) segments, none⟩ := by
  induction segments with
  | nil => exact scanFrom_last total hlast.skip
  | cons s ss ih =>
    rw [List.forall_mem_cons] at hholds hgaps
    obtain ⟨⟨c, own, htext, hblank, hhash, hown⟩, hholds⟩ := hholds
    -- a gap stands behind the token
    have hbehind : StartsGap (layOut ss last) := by
      cases ss with
      | nil => exact hlast.startsGap
      | cons s' ss =>
        have hne : s'.gap ≠ [] := hbetween s' List.mem_cons_self
        have hstarts := (hgaps.2 s' List.mem_cons_self).startsGap
        obtain ⟨d, g, hg⟩ := List.exists_cons_of_ne_nil hne
        rw [StartsGap, hg] at hstarts
        rw [StartsGap, layOut, hg]
        exact hstarts
    have hskip : skipGap (layOut (s :: ss) last) = c :: (own ++ layOut ss last) := by
      rw [layOut, hgaps.1.skip, htext, List.cons_append, skipGap, if_neg (by simp [hblank]),
        if_neg hhash]
    have hlength : (layOut (s :: ss) last).length =
        s.gap.length + s.text.length + (layOut ss last).length := by
      rw [layOut, List.length_append, List.length_append]
      omega
    have htextLength : s.text.length = own.length + 1 := by rw [htext, List.length_cons]
    rw [scanFrom_token total hskip (hown _ hbehind),
      ih hholds hgaps.2 (fun s hs => hbetween s (List.mem_of_mem_tail hs)) (by omega), lexemesFrom]
    have hstart : total - (layOut (s :: ss) last).length + s.gap.length =
        total - ((own ++ layOut ss last).length + 1) := by
      rw [List.length_append]
      omega
    have hstop : total - (layOut (s :: ss) last).length + s.gap.length + s.text.length =
        total - (layOut ss last).length := by
      omega
    rw [hstop, hstart]

/-! ## Other gaps

  What segments have in common when only their gaps differ: their texts and their tokens.  The
  tokens of an expression are all that is read of it, so the expression is the same. -/

section Regapped

variable {gaps : List (List Char)}

/-- The tokens of segments, without their places. -/
theorem map_token_lexemesFrom (offset : Nat) (segments : List Segment) :
    (lexemesFrom offset segments).map (·.token) = segments.map (·.token) := by
  induction segments generalizing offset with
  | nil => rfl
  | cons s ss ih => rw [lexemesFrom, List.map_cons, List.map_cons, ih]

/-- Only the gaps are exchanged. -/
theorem map_regapped {segments : List Segment} (h : gaps.length = segments.length) :
    (regapped segments gaps).map (·.gap) = gaps ∧
      (regapped segments gaps).map (fun s => (s.text, s.token)) =
        segments.map fun s => (s.text, s.token) := by
  induction segments generalizing gaps with
  | nil =>
    obtain rfl := List.length_eq_zero_iff.1 h
    exact ⟨rfl, rfl⟩
  | cons s ss ih =>
    obtain ⟨g, gs, rfl⟩ := List.exists_cons_of_length_eq_add_one h
    obtain ⟨hgaps, hsame⟩ := ih (Nat.succ.inj h)
    exact ⟨congrArg (g :: ·) hgaps, congrArg (_ :: ·) hsame⟩

/-- Other gaps leave the tokens. -/
theorem map_token_regapped {segments : List Segment} (h : gaps.length = segments.length) :
    (regapped segments gaps).map (·.token) = segments.map (·.token) := by
  have hsame := congrArg (List.map Prod.snd) (map_regapped h).2
  rwa [List.map_map, List.map_map] at hsame

/-- And the texts, so what is known of them stays true.  Of a segment it is known for its text
    alone. -/
theorem holds_regapped {segments : List Segment} (h : gaps.length = segments.length)
    (hholds : ∀ s ∈ segments, s.Holds) : ∀ s ∈ regapped segments gaps, s.Holds := by
  intro s hs
  -- the segment with its old gap is among the segments
  have hmem : (s.text, s.token) ∈ segments.map fun s => (s.text, s.token) := by
    rw [← (map_regapped h).2]
    exact List.mem_map_of_mem hs
  obtain ⟨old, hold, heq⟩ := List.mem_map.1 hmem
  obtain ⟨htext, htoken⟩ := Prod.mk.inj heq
  obtain ⟨c, own, hown⟩ := hholds old hold
  rw [htext, htoken] at hown
  exact ⟨c, own, hown⟩

end Regapped

end BlockQuery.Lexeme

namespace BlockQuery

open Lexeme

/-- **A query is a row of tokens with gaps, and only the tokens count.**  A query that is read to
    its end is made of the texts of its tokens, which are not empty and stand where the tokens say,
    and of gaps.  Any other gaps, none of them empty between two tokens, leave the tokens, and the
    expression if there is one. -/
theorem Lexemes.ofChars_regapped (query : List Char) (h : (Lexemes.ofChars query).fault = none) :
    ∃ segments last,
      query = layOut segments last ∧
      (Lexemes.ofChars query).list = lexemesFrom 0 segments ∧
      (∀ s ∈ segments, s.text ≠ [] ∧ Gap s.gap) ∧ LastGap last ∧
      ∀ gaps last', gaps.length = segments.length → (∀ g ∈ gaps, Gap g) →
        (∀ g ∈ gaps.tail, g ≠ []) → LastGap last' →
          let other := layOut (regapped segments gaps) last'
          Lexemes.ofChars other = ⟨lexemesFrom 0 (regapped segments gaps), none⟩ ∧
            (Lexemes.ofChars other).list.map (·.token) =
              (Lexemes.ofChars query).list.map (·.token) ∧
            ∀ e, Expr.ofChars query = .ok e ↔ Expr.ofChars other = .ok e := by
  obtain ⟨segments, last, hquery, hlist, hsegments, hlast⟩ := exists_segments h (Nat.le_refl _)
  rw [Nat.sub_self] at hlist
  refine ⟨segments, last, hquery, hlist, ?_, hlast, ?_⟩
  · intro s hs
    obtain ⟨⟨c, own, htext, -⟩, hgap⟩ := hsegments s hs
    exact ⟨by simp [htext], hgap⟩
  · intro gaps last' hlength hgaps hbetween hlast' other
    have hmap := (map_regapped hlength).1
    have hholds := holds_regapped hlength fun s hs => (hsegments s hs).1
    have hgap : ∀ s ∈ regapped segments gaps, Gap s.gap := fun s hs =>
      hgaps s.gap (hmap ▸ List.mem_map_of_mem hs)
    have htail : ∀ s ∈ (regapped segments gaps).tail, s.gap ≠ [] := by
      intro s hs
      refine hbetween s.gap ?_
      rw [← hmap, ← List.map_tail]
      exact List.mem_map_of_mem hs
    have hother : Lexemes.ofChars other = ⟨lexemesFrom 0 (regapped segments gaps), none⟩ := by
      rw [Lexemes.ofChars, scanFrom_layOut hholds hgap htail hlast' (Nat.le_refl _), Nat.sub_self]
    have htokens : (Lexemes.ofChars other).list.map (·.token) =
        (Lexemes.ofChars query).list.map (·.token) := by
      rw [hother, Lexemes.ofChars, hlist, map_token_lexemesFrom, map_token_lexemesFrom,
        map_token_regapped hlength]
    refine ⟨hother, htokens, fun e => ?_⟩
    -- an expression is what the tokens stand for
    rw [Expr.ofChars, Expr.ofChars, Expr.ofLexemes_iff_derivesQuery h,
      Expr.ofLexemes_iff_derivesQuery (by rw [hother]), htokens]

/-- The three tokens of `.a//1` with a blank and a comment between them, and an open comment
    behind. -/
theorem Lexemes.ofChars_regapped_comment :
    (Lexemes.ofChars ".a//1".toList).fault = none ∧
      ∃ segments last, ".a//1".toList = layOut segments last ∧ segments.length = 3 ∧
        let other := regapped segments [[], [' '], "#c\n".toList]
        Lexemes.ofChars (layOut other "#".toList) = ⟨lexemesFrom 0 other, none⟩ := by
  have hfault : (Lexemes.ofChars ".a//1".toList).fault = none := by decide +kernel
  obtain ⟨segments, last, hquery, hlist, -, -, hother⟩ :=
    Lexemes.ofChars_regapped ".a//1".toList hfault
  have hlength : segments.length = 3 := by
    have htokens := congrArg (List.map (·.token)) hlist
    rw [map_token_lexemesFrom] at htokens
    calc segments.length
      _ = (segments.map (·.token)).length := (List.length_map _).symm
      _ = 3 := by
        rw [← htokens]
        decide +kernel
  have hgaps : ∀ g ∈ [[], [' '], "#c\n".toList], Gap g := by
    simp only [List.forall_mem_cons]
    exact ⟨.nil, .blank (by decide) .nil, @Gap.comment ['c'] [] (by decide) .nil, by simp⟩
  refine ⟨hfault, segments, last, hquery, hlength, ?_⟩
  exact (hother [[], [' '], "#c\n".toList] ['#'] hlength.symm hgaps (by decide)
    (@LastGap.comment [] [] .nil List.not_mem_nil)).1

end BlockQuery

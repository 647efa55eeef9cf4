/-
  Runs of a query cache.

  A cache is used in steps: a source is asked for, or everything is forgotten.  What a cache holds
  is told by a list of sources (`Holds`): those sources are its keys, each with the query that it
  compiles to, and as many as are distinct count.  A step keeps this for the sources that were
  compiled since the cache was last cleared (`holds_run`), whether they were found or compiled anew;
  so asking the cache and compiling never differ, after any steps.

  The list of sources is a history and the cache is a map, so `Holds` says which of the one belong
  to the other and how many.  The step lemma (`Holds.request`) has three cases, a source that is no
  query, one that is held already and one that is new; the run is an induction from the last step,
  since it is the last clear that counts.
-/
import BlockQuery.Proofs.CompiledQuery
import Mathlib.Data.Finset.Card
import Mathlib.Data.List.DropRight

namespace BlockQuery

open BlockQuery.Derivation

/-- What is done with a cache. -/
inductive CacheStep where
  /-- a source is asked for -/
  | request (source : String)
  /-- everything is forgotten -/
  | clear
deriving DecidableEq, Repr

/-- The source that a step asks for. -/
def CacheStep.source? : CacheStep → Option String
  | request source => some source
  | clear => none

/-- Whether a source is the text of a query. -/
def Query.isSource (source : String) : Bool :=
  (Query.compile source).isOk

/-- A source is the text of a query when it compiles. -/
theorem Query.isSource_iff {source : String} :
    Query.isSource source ↔ ∃ q, Query.compile source = .ok q := by
  rw [Query.isSource]
  cases Query.compile source <;> simp [Except.isOk, Except.toBool]

namespace QueryCache

/-! ## Steps

  The steps are data, so a run is a list of them, and what has been compiled since the last clear is
  a function of that list alone. -/

/-- A cache after one step. -/
def after (c : QueryCache) : CacheStep → QueryCache
  | .request source => (c.getOrCompile source).2
  | .clear => empty

/-- A new cache after some steps. -/
def run (steps : List CacheStep) : QueryCache :=
  steps.foldl after empty

/-- The sources that steps have compiled since the last of them that cleared, one for each time that
    they were asked for. -/
def compiledSince (steps : List CacheStep) : List String :=
  ((steps.rtakeWhile fun s => s.source?.isSome).filterMap CacheStep.source?).filter Query.isSource

/-- Behind a clear nothing has been compiled. -/
theorem compiledSince_clear (steps : List CacheStep) :
    compiledSince (steps ++ [.clear]) = [] := by
  rw [compiledSince, List.rtakeWhile_concat_neg _ _ _ (by simp [CacheStep.source?])]
  rfl

/-- Behind a request the source has been, if it is a query. -/
theorem compiledSince_request (steps : List CacheStep) (source : String) :
    compiledSince (steps ++ [.request source]) =
      if Query.isSource source then compiledSince steps ++ [source] else compiledSince steps := by
  rw [compiledSince, List.rtakeWhile_concat_pos _ _ _ (by simp [CacheStep.source?]),
    List.filterMap_append, List.filter_append]
  split
  · rename_i h
    simp [CacheStep.source?, h, compiledSince]
  · rename_i h
    simp [CacheStep.source?, h, compiledSince]

/-! ## What a cache holds

  The invariant, and what each kind of step does to it.  It names the query of each source, so it
  also says that a cache never mixes two sources up. -/

/-- Whether a cache holds the queries of some sources and nothing else. -/
structure Holds (c : QueryCache) (sources : List String) : Prop where
  lookup : ∀ source q, c.compiled[source]? = some q ↔
    source ∈ sources ∧ Query.compile source = .ok q
  size : c.size = sources.toFinset.card

/-- A new cache holds nothing. -/
theorem holds_empty : empty.Holds [] :=
  ⟨by simp [empty], Std.HashMap.size_empty⟩

variable {c : QueryCache} {sources : List String} {source : String}

/-- Only which sources there are counts, not how often or in which order. -/
theorem Holds.congr {others : List String} (h : c.Holds sources)
    (hmem : ∀ source, source ∈ others ↔ source ∈ sources) : c.Holds others := by
  constructor
  · intro source q
    rw [h.lookup, hmem]
  · rw [h.size]
    congr 1
    ext source
    simp only [List.mem_toFinset, hmem]

/-- A source that is not there is no query or none of those that the cache holds. -/
theorem Holds.not_mem {q : Query} (h : c.Holds sources) (hmiss : c.compiled[source]? = none)
    (hcompile : Query.compile source = .ok q) : source ∉ sources := by
  intro hmem
  have hfound := (h.lookup source q).2 ⟨hmem, hcompile⟩
  rw [hmiss] at hfound
  cases hfound

/-- A source that is no query changes nothing. -/
theorem Holds.getOrCompile_of_error {e : SyntaxError} (h : c.Holds sources)
    (he : Query.compile source = .error e) : c.getOrCompile source = (.error e, c) := by
  unfold getOrCompile
  cases hfound : c.compiled[source]? with
  | some q =>
    rw [((h.lookup source q).1 hfound).2] at he
    cases he
  | none => simp only [he]

/-- A query that is compiled anew is held besides the others. -/
theorem Holds.insert {q : Query} (h : c.Holds sources) (hmiss : c.compiled[source]? = none)
    (hcompile : Query.compile source = .ok q) :
    Holds ⟨c.compiled.insert source q⟩ (sources ++ [source]) := by
  constructor
  · intro other q'
    rw [Std.HashMap.getElem?_insert, List.mem_append, List.mem_singleton]
    by_cases hother : other = source
    · subst hother
      simp [hcompile]
    · have hkey : (source == other) = false := by simpa using Ne.symm hother
      rw [hkey, if_neg Bool.false_ne_true, h.lookup, or_iff_left hother]
  · have hkey : source ∉ c.compiled := by
      rw [← Std.HashMap.isSome_getElem?_iff_mem, hmiss]
      exact Bool.false_ne_true
    have hsources : (sources ++ [source]).toFinset = Insert.insert source sources.toFinset := by
      ext other
      simp
    have hnew : source ∉ sources.toFinset := by simpa using h.not_mem hmiss hcompile
    calc (c.compiled.insert source q).size
      _ = c.size + 1 := by rw [Std.HashMap.size_insert, if_neg hkey]; rfl
      _ = sources.toFinset.card + 1 := by rw [h.size]
      _ = (sources ++ [source]).toFinset.card := by
        rw [hsources, Finset.card_insert_of_notMem hnew]

/-- Asking for a source gives what compiling it gives, and the cache holds it afterwards if it is
    a query. -/
theorem Holds.request (h : c.Holds sources) (source : String) :
    (c.getOrCompile source).1 = Query.compile source ∧
      (c.getOrCompile source).2.Holds
        (if Query.isSource source then sources ++ [source] else sources) := by
  cases hcompile : Query.compile source with
  | error e =>
    rw [h.getOrCompile_of_error hcompile, if_neg (by simp [Query.isSource_iff, hcompile])]
    exact ⟨rfl, h⟩
  | ok q =>
    rw [if_pos (Query.isSource_iff.2 ⟨q, hcompile⟩), getOrCompile]
    cases hfound : c.compiled[source]? with
    | some q' =>
      obtain ⟨hmem, hcompile'⟩ := (h.lookup source q').1 hfound
      refine ⟨hcompile'.symm.trans hcompile, h.congr fun other => ?_⟩
      rw [List.mem_append, List.mem_singleton, or_iff_left_iff_imp]
      exact fun hother => hother ▸ hmem
    | none =>
      simp only [hcompile]
      exact ⟨trivial, h.insert hfound hcompile⟩

/-- After any steps a cache holds what has been compiled since it was last cleared. -/
theorem holds_run (steps : List CacheStep) : (run steps).Holds (compiledSince steps) := by
  induction steps using List.reverseRecOn with
  | nil => exact holds_empty
  | append_singleton steps step ih =>
    rw [run, List.foldl_concat]
    cases step with
    | clear =>
      rw [compiledSince_clear]
      exact holds_empty
    | request source =>
      rw [compiledSince_request]
      exact (ih.request source).2

/-! ## Transparency

  What the invariant says to a user, who sees the cache and the results but not the history. -/

/-- **A cache is transparent.**  After any steps, what it has under a source is the query that the
    source compiles to, asking for a source gives what compiling it gives, a source that is no query
    leaves it as it was, the sources that it has are those compiled since it was last cleared, and
    its size is the number of distinct ones among them. -/
theorem run_transparent (steps : List CacheStep) :
    let c := run steps
    (∀ source q, c.compiled[source]? = some q →
      q.source = source ∧ Query.compile source = .ok q) ∧
    (∀ source, (c.getOrCompile source).1 = Query.compile source) ∧
    (∀ source e, Query.compile source = .error e → (c.getOrCompile source).2 = c) ∧
    (∀ source, source ∈ c.compiled ↔ source ∈ compiledSince steps) ∧
    c.size = (compiledSince steps).toFinset.card := by
  intro c
  have hc : c.Holds (compiledSince steps) := holds_run steps
  refine ⟨?_, fun source => (hc.request source).1, ?_, ?_, hc.size⟩
  · intro source q hq
    have hcompile := ((hc.lookup source q).1 hq).2
    obtain ⟨e, -, rfl⟩ := map_eq_ok.1 hcompile
    exact ⟨rfl, hcompile⟩
  · intro source e he
    rw [hc.getOrCompile_of_error he]
  · intro source
    rw [← Std.HashMap.isSome_getElem?_iff_mem, Option.isSome_iff_exists]
    constructor
    · rintro ⟨q, hq⟩
      exact ((hc.lookup source q).1 hq).1
    · intro hmem
      obtain ⟨q, hq⟩ := Query.isSource_iff.1 (List.mem_filter.1 hmem).2
      exact ⟨q, (hc.lookup source q).2 ⟨hmem, hq⟩⟩

/-- A run with a failure, a clear, a miss and a hit. -/
theorem run_transparent_mixed :
    let steps : List CacheStep := [.request "..", .clear, .request "@", .request ".", .request "."]
    let q : Query := ⟨".", .identity⟩
    (∃ e, Query.compile "@" = .error e ∧ ((run steps).getOrCompile "@").2 = run steps) ∧
      (run steps).compiled["."]? = some q ∧ Query.compile "." = .ok q ∧ (run steps).size = 1 := by
  intro steps q
  have hbad : ∃ e, Query.compile "@" = .error e := by
    cases hcompile : Query.compile "@" with
    | error e => exact ⟨e, rfl⟩
    | ok q =>
      obtain ⟨e, he, -⟩ := map_eq_ok.1 hcompile
      have hfault : (Lexemes.ofChars "@".toList).fault ≠ none := by decide +kernel
      exact absurd (fault_eq_none_of_ofLexemes he) hfault
  have hdot : Query.compile "." = .ok q :=
    Query.compile_of_derives (w := [.dot]) (by decide +kernel) (by decide +kernel)
      (.pipeEnd (.listStart (.noAssignment (.alternativeEnd (.noComparison (.sum
        (.start (.productStart (.positive (.walkStart .identity)))) (by simp [Concatenates])))))))
  obtain ⟨e, he⟩ := hbad
  obtain ⟨hheld, -, hunchanged, -, hsize⟩ := run_transparent steps
  have hsince : compiledSince steps = [".", "."] := by
    have hcalled : compiledSince steps = ["@", ".", "."].filter Query.isSource := rfl
    rw [hcalled]
    simp [Query.isSource, he, hdot, Except.isOk, Except.toBool]
  refine ⟨⟨e, he, hunchanged "@" e he⟩, ?_, (hheld "." q ?_).2, ?_⟩
  · exact ((holds_run steps).lookup "." q).2 ⟨by simp [hsince], hdot⟩
  · exact ((holds_run steps).lookup "." q).2 ⟨by simp [hsince], hdot⟩
  · rw [hsize, hsince]
    rfl

end QueryCache

end BlockQuery

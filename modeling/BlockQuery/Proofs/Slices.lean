/-
  Slices and indices by the positions that they name.

  A bound names a position, counted from the start or from the end and without limits
  (`boundPosition`), and a slice has the elements at the positions from its first bound up to its
  last one (`between`).  The slice that is computed clamps both bounds to the ends first; an element
  lies between the bounds as they are exactly when it lies between the clamped ones, also where they
  are crossed (`sliceList_eq_between`).  An index is the position of one element, so it emits what
  the slice of length one at this position has.  Clamping in words of 64 bits gives the same places,
  in order and inside, so nothing is read beyond an end.

  Positions are integers and may lie outside, which is what makes the meaning of a slice simple: no
  case is needed for a bound before the start, behind the end, or behind the other bound.  The
  program moves each bound inside first, and in words it does so without leaving the range of a
  word.
-/
import BlockQuery.Proofs.IndexWords
import BlockQuery.Query.Eval

namespace BlockQuery

variable {α : Type}

/-! ## Positions

  `between` picks elements by their positions, one by one, and does not mention cutting.  That it is
  a piece of the list is the first lemma. -/

/-- The position that a bound names among `n` elements. -/
def boundPosition (n : Nat) (b : Int) : Int :=
  if b < 0 then n + b else b

/-- The position at which a slice starts. -/
def firstPosition (n : Nat) (start : Option Int) : Int :=
  (start.map (boundPosition n)).getD 0

/-- The position before which a slice stops. -/
def lastPosition (n : Nat) (stop : Option Int) : Int :=
  (stop.map (boundPosition n)).getD n

/-- The elements at the positions from `lo` on and before `hi`, in order. -/
def between (lo hi : Int) (items : List α) : List α :=
  (items.zipIdx.filter fun e => lo ≤ e.2 ∧ e.2 < hi).map (·.1)

/-- The elements between two positions, without those before the first one and those from the last
    one on. -/
theorem between_eq_drop_take (lo hi : Int) (items : List α) :
    between lo hi items = (items.take hi.toNat).drop lo.toNat := by
  -- the same from any position `k` on
  have hfrom : ∀ k : Nat, ((items.zipIdx k).filter fun e => lo ≤ e.2 ∧ e.2 < hi).map (·.1) =
      (items.take (hi - k).toNat).drop (lo - k).toNat := by
    induction items with
    | nil => simp
    | cons x items ih =>
      intro k
      have hih := ih (k + 1)
      rw [List.zipIdx_cons]
      by_cases hhi : (k : Int) < hi
      · have htake : (hi - k).toNat = (hi - (k + 1 : Nat)).toNat + 1 := by omega
        rw [htake, List.take_succ_cons]
        by_cases hlo : lo ≤ k
        · have hdrop : (lo - k).toNat = 0 := by omega
          have hdrop' : (lo - (k + 1 : Nat)).toNat = 0 := by omega
          rw [hdrop'] at hih
          rw [List.filter_cons_of_pos (by simp [hlo, hhi]), List.map_cons, hih, hdrop]
          rfl
        · have hdrop : (lo - k).toNat = (lo - (k + 1 : Nat)).toNat + 1 := by omega
          rw [List.filter_cons_of_neg (by simp [hlo]), hih, hdrop, List.drop_succ_cons]
      · have htake : (hi - k).toNat = 0 := by omega
        have htake' : (hi - (k + 1 : Nat)).toNat = 0 := by omega
        rw [List.filter_cons_of_neg (by simp [hhi]), hih, htake, htake']
        simp
  simpa [between] using hfrom 0

/-- A slice of length one has the element at its position, if there is one. -/
theorem between_succ (p : Int) (items : List α) :
    between p (p + 1) items = (if 0 ≤ p then items[p.toNat]? else none).toList := by
  rw [between_eq_drop_take]
  by_cases hp : 0 ≤ p
  · have hnext : (p + 1).toNat - p.toNat = 1 := by omega
    rw [if_pos hp, List.drop_take, hnext, List.take_one, List.head?_drop]
  · have hnext : (p + 1).toNat = 0 := by omega
    rw [if_neg hp, hnext]
    simp

/-! ## Clamping

  A position is moved inside by a minimum and by the part of an integer that is not negative.  An
  index has no element outside, so it is not moved but turned down. -/

/-- The place of a bound is its position, moved inside. -/
theorem clampBound_eq (n : Nat) (b : Int) : clampBound n b = min (boundPosition n b).toNat n := by
  unfold clampBound boundPosition
  split <;> omega

/-- The same for a bound that may be missing, with a place `d` inside for it. -/
theorem getD_clampBound_eq {n d : Nat} (h : d ≤ n) (bound : Option Int) :
    (bound.map (clampBound n)).getD d = min ((bound.map (boundPosition n)).getD d).toNat n := by
  cases bound with
  | none => exact (Nat.min_eq_left h).symm
  | some b => exact clampBound_eq n b

/-- The position of an index is that of a bound, if it is not before the start. -/
theorem resolveIndex?_eq (i : Int) (n : Nat) :
    resolveIndex? i n =
      if 0 ≤ boundPosition n i then some (boundPosition n i).toNat else none := by
  unfold resolveIndex? boundPosition
  by_cases hi : i < 0
  · rw [if_neg (Int.not_le.2 hi), if_pos hi]
  · rw [if_pos (Int.not_lt.1 hi), if_neg hi, if_pos (Int.not_lt.1 hi)]

/-- Clamping the bounds does not change what lies between them. -/
theorem sliceList_eq_between (start stop : Option Int) (items : List α) :
    sliceList start stop items =
      between (firstPosition items.length start) (lastPosition items.length stop) items := by
  have hfirst : (start.map (clampBound items.length)).getD 0 =
      min (firstPosition items.length start).toNat items.length :=
    getD_clampBound_eq (Nat.zero_le _) start
  have hlast : (stop.map (clampBound items.length)).getD items.length =
      min (lastPosition items.length stop).toNat items.length :=
    getD_clampBound_eq (Nat.le_refl _) stop
  have htake : items.take (min (lastPosition items.length stop).toNat items.length) =
      items.take (lastPosition items.length stop).toNat := List.take_eq_take_iff.2 (by omega)
  rw [between_eq_drop_take, sliceList, hfirst, hlast, htake]
  by_cases hinside : (firstPosition items.length start).toNat ≤ items.length
  · rw [Nat.min_eq_left hinside]
  · have hbeyond := Nat.le_of_not_le hinside
    have hlength : ∀ n, (items.take n).length ≤ items.length :=
      fun n => List.length_take_le' n items
    rw [Nat.min_eq_right hbeyond, List.drop_eq_nil_of_le (hlength _),
      List.drop_eq_nil_of_le (Nat.le_trans (hlength _) hbeyond)]

/-- Cutting at a bound leaves the elements before it and those behind it. -/
theorem sliceList_append (k : Int) (items : List α) :
    sliceList none (some k) items ++ sliceList (some k) none items = items := by
  simp only [sliceList, Option.map_none, Option.map_some, Option.getD_none, Option.getD_some,
    List.drop_zero, List.take_length, List.take_append_drop]

/-- An index emits the slice of length one at its position.  The slice from the last element has no
    bound behind it, for that would be zero. -/
theorem toList_resolveIndex? (i : Int) (items : List α) :
    ((resolveIndex? i items.length).bind fun n => items[n]?).toList =
      sliceList (some i) (if i = -1 then none else some (i + 1)) items := by
  have hlast : lastPosition items.length (if i = -1 then none else some (i + 1)) =
      boundPosition items.length i + 1 := by
    unfold lastPosition
    split
    · rename_i hi
      subst hi
      simp only [boundPosition, Option.map_none, Option.getD_none]
      omega
    · simp only [boundPosition, Option.map_some, Option.getD_some]
      omega
  have hfirst : firstPosition items.length (some i) = boundPosition items.length i := rfl
  rw [sliceList_eq_between, hfirst, hlast, between_succ, resolveIndex?_eq]
  by_cases hstart : 0 ≤ boundPosition items.length i
  · rw [if_pos hstart, if_pos hstart, Option.bind_some]
  · rw [if_neg hstart, if_neg hstart, Option.bind_none]

/-! ## Words

  The places that are computed in words are taken over, so the piece between them is the slice. -/

/-- The slice has the elements from the first place that is computed in words up to the last one. -/
theorem sliceList_eq_extract {n : UInt64} {items : List α} (hn : items.length = n.toNat)
    (start stop : Option Int64) :
    sliceList (start.map Int64.toInt) (stop.map Int64.toInt) items =
      items.extract (Word.slicePlaces start stop n).1.toNat
        (Word.slicePlaces start stop n).2.toNat := by
  rw [sliceList, hn, ← Word.toNat_firstPlace, ← Word.toNat_lastPlace, List.drop_take,
    List.extract_eq_take_drop, Word.slicePlaces]
  by_cases hle : Word.firstPlace n start ≤ Word.lastPlace n stop
  · rw [if_pos hle]
  · -- crossed places leave nothing
    have hlt := mt UInt64.le_iff_toNat_le.2 hle
    have hnone : (Word.lastPlace n stop).toNat - (Word.firstPlace n start).toNat = 0 := by omega
    rw [if_neg hle, hnone, Nat.sub_self]

namespace Expr

/-! ## Evaluation

  The evaluator slices sequences and strings, the latter by characters, and an index is an operation
  of its own that emits at most one element. -/

/-- **A slice has the elements between its bounds.** On a sequence, and on a string character by
    character, it emits what stands between the positions of its bounds, however large they are.
    Cutting at a bound loses nothing, and an index emits the elements of the slice of length one at
    its position.  Computed in words, the places of the bounds are in order and inside, and the
    slice has the elements between them; the position of an index is the same in words. -/
theorem eval_slice_between (options : EvalOptions) (items : List Value) (s : String) :
    (∀ start stop : Option Int,
      eval options (slice start stop) (.sequence items) =
          .ok [.sequence (between (firstPosition items.length start)
            (lastPosition items.length stop) items)] ∧
        eval options (slice start stop) (.string s) =
          .ok [.string (String.ofList (between (firstPosition s.toList.length start)
            (lastPosition s.toList.length stop) s.toList))]) ∧
    (∀ k : Int,
      (∃ front back,
        eval options (slice none (some k)) (.sequence items) = .ok [.sequence front] ∧
          eval options (slice (some k) none) (.sequence items) = .ok [.sequence back] ∧
          front ++ back = items) ∧
      ∃ front back,
        eval options (slice none (some k)) (.string s) = .ok [.string front] ∧
          eval options (slice (some k) none) (.string s) = .ok [.string back] ∧
          front ++ back = s) ∧
    (∀ i : Int, ∃ elements,
      eval options (index i) (.sequence items) = .ok elements ∧
        eval options (slice (some i) (if i = -1 then none else some (i + 1))) (.sequence items) =
          .ok [.sequence elements]) ∧
    (∀ (start stop : Option Int64) (n : UInt64),
      let places := Word.slicePlaces start stop n
      let operation := slice (start.map Int64.toInt) (stop.map Int64.toInt)
      places.1 ≤ places.2 ∧ places.2 ≤ n ∧
        (items.length = n.toNat → eval options operation (.sequence items) =
          .ok [.sequence (items.extract places.1.toNat places.2.toNat)]) ∧
        (s.toList.length = n.toNat → eval options operation (.string s) =
          .ok [.string (String.ofList (s.toList.extract places.1.toNat places.2.toNat))])) ∧
    ∀ (i : Int64) (n : UInt64), items.length = n.toNat →
      eval options (index i.toInt) (.sequence items) =
        .ok ((Word.resolveIndex? i n).bind fun p => items[p.toNat]?).toList := by
  have hsequence : ∀ start stop, eval options (slice start stop) (.sequence items) =
      .ok [.sequence (sliceList start stop items)] := fun start stop => rfl
  have hstring : ∀ start stop, eval options (slice start stop) (.string s) =
      .ok [.string (String.ofList (sliceList start stop s.toList))] := fun start stop => rfl
  have hindex : ∀ i, eval options (index i) (.sequence items) =
      .ok ((resolveIndex? i items.length).bind fun n => items[n]?).toList := fun i => rfl
  refine ⟨?_, ?_, ?_, ?_, ?_⟩
  · intro start stop
    rw [hsequence, hstring, sliceList_eq_between, sliceList_eq_between]
    exact ⟨rfl, rfl⟩
  · intro k
    refine ⟨⟨_, _, hsequence _ _, hsequence _ _, sliceList_append k items⟩,
      _, _, hstring _ _, hstring _ _, ?_⟩
    rw [← String.ofList_append, sliceList_append, String.ofList_toList]
  · intro i
    refine ⟨_, hindex i, ?_⟩
    rw [hsequence, toList_resolveIndex?]
  · intro start stop n
    obtain ⟨hordered, hinside⟩ := Word.slicePlaces_inside start stop n
    refine ⟨hordered, hinside, ?_, ?_⟩
    · intro hn
      rw [hsequence, sliceList_eq_extract hn]
    · intro hn
      rw [hstring, sliceList_eq_extract hn]
  · intro i n hn
    rw [hindex, hn, ← Word.map_toNat_resolveIndex?]
    cases Word.resolveIndex? i n <;> rfl

/-- Three elements cut from the least word on, and with crossed bounds. -/
theorem eval_slice_between_words :
    let items := [Value.null, .boolean true, .boolean false]
    items.length = (3 : UInt64).toNat ∧ "aλb".toList.length = (3 : UInt64).toNat ∧
      Word.slicePlaces (some Int64.minValue) (some (-1)) 3 = (0, 2) ∧
      Word.slicePlaces (some 2) (some 1) 3 = (2, 2) ∧
      eval {} (slice (some (-9223372036854775808)) (some (-1))) (.sequence items) =
        .ok [.sequence [.null, .boolean true]] ∧
      eval {} (slice (some (-9223372036854775808)) (some (-1))) (.string "aλb") =
        .ok [.string "aλ"] ∧
      eval {} (slice (some 2) (some 1)) (.sequence items) = .ok [.sequence []] ∧
      eval {} (index (-1)) (.sequence items) = .ok [.boolean false] := by
  intro items
  have hitems : items.length = (3 : UInt64).toNat := rfl
  have hchars : "aλb".toList.length = (3 : UInt64).toNat := rfl
  obtain ⟨-, -, -, hwords, hindex⟩ := eval_slice_between {} items "aλb"
  refine ⟨hitems, hchars, by decide, by decide, ?_, ?_, ?_, ?_⟩
  · exact (hwords (some Int64.minValue) (some (-1)) 3).2.2.1 hitems
  · exact (hwords (some Int64.minValue) (some (-1)) 3).2.2.2 hchars
  · exact (hwords (some 2) (some 1) 3).2.2.1 hitems
  · exact hindex (-1) 3 hitems

end Expr

end BlockQuery

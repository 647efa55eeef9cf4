/-
  The order of values is total, and equality is where it does not decide.

  Values compare by rank first and within a rank by what they hold (`compare_eq`), so each law is
  proved for values of one rank and holds of all.  For trees it is proved by induction on the first
  of them, the others being arbitrary: sequences compare element by element, and mappings, once
  their sorted keys agree, key by key (`compareWithin_mapping`).  Where keys are distinct it does
  not matter in which order the entries stand.

  The operators of queries read the verdicts of this order; only `==` and `!=` between a string and
  another scalar look at texts instead.

  Three laws are proved side by side, for sequences, for mappings and then for all values: turning
  around (`compare_swap`), transitivity in the form of `Follows` (`follows_compare_values`), and
  what equality means (`compare_eq_iff_same`).  The second one is the load-bearing one, and it is
  the reason why verdicts have a theory of their own: a mapping is compared by its keys first, so
  neither its keys nor its values alone are ordered transitively by what decides.

  Distinct keys are needed for mappings only, and there they are needed for the simplest of the
  laws: a mapping with one key twice can be equal to another that is not equal to it, as both its
  entries may be found where the other has one.
-/
import BlockQuery.Proofs.Tree
import BlockQuery.Proofs.Verdict
import BlockQuery.Query.Operation
import Mathlib.Data.List.Perm.Subperm

namespace BlockQuery

namespace Value

variable {a b c : Value}

/-! ## Ranks

  A rank is a number for each kind of value, with two for the truth values.  As ranks are compared
  first, a law of the order is a law of the numbers followed by a law within one rank; values of
  different kinds need nothing else. -/

/-- The verdict on two values of one rank.  Between values of different ranks it is never asked
    for. -/
def compareWithin : Value → Value → Ordering
  | number a, number b => a.compare b
  | string a, string b => compareStrings a b
  | sequence a, sequence b => compareItems a b
  | mapping a, mapping b =>
      (compareKeys (sortedKeys a) (sortedKeys b)).then (firstVerdict (compareEntries a b))
  | _, _ => .eq

/-- Values compare by rank, and then within their rank. -/
theorem compare_eq (a b : Value) :
    a.compare b = (Ord.compare a.rank b.rank).then (compareWithin a b) := by
  cases a <;> cases b <;> first | rfl | exact Ordering.then_eq.symm

/-- Only the two truth values are of one kind and have different ranks, so the rank of a value tells
    its kind. -/
theorem kind_eq_of_rank_eq (h : a.rank = b.rank) : a.kind = b.kind := by
  have hkind : ∀ v : Value, v.kind = [Kind.null, .boolean, .boolean, .number, .string, .sequence,
      .mapping].getD v.rank .null := by
    intro v
    cases v with
    | boolean b => cases b <;> rfl
    | _ => rfl
  rw [hkind a, hkind b, h]

/-- Only values of one kind can compare as equal. -/
theorem kind_eq_of_compare (h : a.compare b = .eq) : a.kind = b.kind := by
  rw [compare_eq, Ordering.then_eq_eq, Nat.compare_eq_eq] at h
  exact kind_eq_of_rank_eq h.1

/-- Only values of one kind can be the same. -/
theorem kind_eq_of_same (h : a.same b = true) : a.kind = b.kind := by
  cases a <;> cases b <;> first | rfl | cases h

/-- Values of different kinds neither compare as equal nor are the same. -/
theorem of_kind_ne (h : a.kind ≠ b.kind) : a.compare b = .eq ↔ a.same b = true :=
  iff_of_false (fun hcompare => h (kind_eq_of_compare hcompare))
    fun hsame => h (kind_eq_of_same hsame)

/-- What holds within the ranks holds of the order: it turns around, … Only values of one kind have
    to be looked at. -/
theorem compare_swap_of_within
    (h : a.kind = b.kind → compareWithin b a = (compareWithin a b).swap) :
    b.compare a = (a.compare b).swap := by
  rw [compare_eq, compare_eq a, Ordering.swap_then, ← Std.OrientedOrd.eq_swap]
  apply then_congr
  intro hrank
  exact h (kind_eq_of_rank_eq (Nat.compare_eq_eq.1 hrank).symm)

/-- … and its verdicts follow. -/
theorem follows_of_within
    (h : a.kind = b.kind → b.kind = c.kind →
      Follows (compareWithin a b) (compareWithin b c) (compareWithin a c)) :
    Follows (a.compare b) (b.compare c) (a.compare c) := by
  rw [compare_eq, compare_eq b, compare_eq a c]
  refine (follows_compare a.rank b.rank c.rank).then ?_
  intro hab hbc
  exact h (kind_eq_of_rank_eq (Nat.compare_eq_eq.1 hab))
    (kind_eq_of_rank_eq (Nat.compare_eq_eq.1 hbc))

/-! ## Sequences

  Elements are compared from the front, and a sequence that ends first comes first.  Each law is by
  induction on the first sequence, with the law for the elements as its hypothesis. -/

/-- Sequences compare as equal when they have the same elements.  One that is a part of the other is
    neither: it comes first, and it has fewer. -/
theorem compareItems_eq_iff {as bs : List Value}
    (h : ∀ a ∈ as, ∀ b ∈ bs, a.compare b = .eq ↔ a.same b = true) :
    compareItems as bs = .eq ↔ sameItems as bs = true := by
  induction as generalizing bs with
  | nil => cases bs <;> simp [compareItems, sameItems]
  | cons a as ih =>
    cases bs with
    | nil => simp [compareItems, sameItems]
    | cons b bs =>
      have htail : compareItems as bs = .eq ↔ sameItems as bs = true :=
        ih fun a ha b hb => h a (List.mem_cons_of_mem _ ha) b (List.mem_cons_of_mem _ hb)
      rw [compareItems, sameItems, Ordering.then_eq_eq, Bool.and_eq_true, htail,
        h a List.mem_cons_self b List.mem_cons_self]

/-- The comparison of sequences turns around when that of their elements does. -/
theorem compareItems_swap {as bs : List Value}
    (h : ∀ a ∈ as, ∀ b ∈ bs, b.compare a = (a.compare b).swap) :
    compareItems bs as = (compareItems as bs).swap := by
  induction as generalizing bs with
  | nil => cases bs <;> rfl
  | cons a as ih =>
    cases bs with
    | nil => rfl
    | cons b bs =>
      have htail : compareItems bs as = (compareItems as bs).swap :=
        ih fun a ha b hb => h a (List.mem_cons_of_mem _ ha) b (List.mem_cons_of_mem _ hb)
      rw [compareItems, compareItems, Ordering.swap_then, htail,
        h a List.mem_cons_self b List.mem_cons_self]

/-- The verdicts on sequences follow when those on their elements do.  By induction on the first
    one; where a sequence has ended, the other two decide. -/
theorem follows_compareItems {as bs cs : List Value}
    (h : ∀ a ∈ as, ∀ b ∈ bs, ∀ c ∈ cs, Follows (a.compare b) (b.compare c) (a.compare c)) :
    Follows (compareItems as bs) (compareItems bs cs) (compareItems as cs) := by
  induction as generalizing bs cs with
  | nil =>
    cases bs with
    | nil => cases cs <;> exact fun _ => rfl
    | cons b bs =>
      cases cs with
      | nil => exact nofun
      | cons c cs => exact fun _ => rfl
  | cons a as ih =>
    cases bs with
    | nil =>
      cases cs with
      | nil => exact fun _ => rfl
      | cons c cs => exact nofun
    | cons b bs =>
      cases cs with
      | nil => exact Eq.symm
      | cons c cs =>
        refine (h a List.mem_cons_self b List.mem_cons_self c List.mem_cons_self).then ?_
        intro _ _
        exact ih fun a ha b hb c hc => h a (List.mem_cons_of_mem _ ha) b
          (List.mem_cons_of_mem _ hb) c (List.mem_cons_of_mem _ hc)

/-! ## Mappings

  The keys are sorted before they are compared, and where they agree the values are compared in the
  order of the keys.  With distinct keys each key has one value, so the verdict on the entries is a
  function of the key (`verdictAt`), and the order of the entries has gone. -/

/-- Sorting neither loses nor adds a key. -/
theorem mem_sortedKeys {es : Entries} {k : String} : k ∈ sortedKeys es ↔ k ∈ Entries.keys es :=
  List.mem_mergeSort

/-- Mappings have the same keys when their sorted keys are the same.  Sorting is total and
    antisymmetric on strings, so a set of keys has one sorted list. -/
theorem sortedKeys_eq_iff {as bs : Entries} :
    sortedKeys as = sortedKeys bs ↔ (Entries.keys as).Perm (Entries.keys bs) := by
  constructor
  · intro h
    have ha : (sortedKeys as).Perm (Entries.keys as) := List.mergeSort_perm _ _
    have hb : (sortedKeys bs).Perm (Entries.keys bs) := List.mergeSort_perm _ _
    exact ha.symm.trans (h ▸ hb)
  · intro h
    have hsorted : ∀ es, (sortedKeys es).Pairwise (· ≤ ·) := by
      intro es
      have htrans : ∀ k l m : String, decide (k ≤ l) = true → decide (l ≤ m) = true →
          decide (k ≤ m) = true := by
        simpa using fun k l m => String.le_trans
      have htotal : ∀ k l : String, (decide (k ≤ l) || decide (l ≤ k)) = true := by
        simpa using String.le_total
      simpa [sortedKeys] using List.pairwise_mergeSort htrans htotal (Entries.keys es)
    refine List.Perm.eq_of_pairwise (fun k l _ _ => String.le_antisymm) (hsorted as)
      (hsorted bs) ?_
    exact (List.mergeSort_perm _ _).trans (h.trans (List.mergeSort_perm _ _).symm)

/-- A key stands in an entry, and distinct keys are found where they stand. -/
theorem exists_entry {es : Entries} (h : (Entries.keys es).Nodup) {k : String}
    (hk : k ∈ Entries.keys es) : ∃ v, (k, v) ∈ es ∧ es.lookup k = some v := by
  obtain ⟨e, he, rfl⟩ := List.mem_map.1 hk
  exact ⟨e.2, he, Entries.lookup_eq_some_of_mem h he⟩

/-- The verdict on the values of a key, for a key of both mappings.  It is a function of the key
    alone, so that verdicts can be followed along the sorted keys without the entries. -/
def verdictAt (as bs : Entries) (k : String) : Ordering :=
  match as.lookup k, bs.lookup k with
  | some v, some w => v.compare w
  | _, _ => .eq

/-- The verdict on a key that both mappings have. -/
theorem verdictAt_eq {as bs : Entries} {k : String} {v w : Value} (hv : as.lookup k = some v)
    (hw : bs.lookup k = some w) : verdictAt as bs k = v.compare w := by
  rw [verdictAt, hv, hw]

/-- The verdicts on the entries, sorted by their keys, are those on the sorted keys.  Each entry of
    the one side has its verdict beside its key, and with distinct keys a key is found where it
    stands, so sorting the entries sorts the keys. -/
theorem firstVerdict_compareEntries {as : Entries} (h : (Entries.keys as).Nodup) (bs : Entries) :
    firstVerdict (compareEntries as bs) = firstOf (sortedKeys as) (verdictAt as bs) := by
  have hentries : ∀ es : Entries, (∀ e ∈ es, as.lookup e.1 = some e.2) →
      compareEntries es bs = (Entries.keys es).map fun k => (k, verdictAt as bs k) := by
    intro es
    induction es with
    | nil => exact fun _ => rfl
    | cons e es ih =>
      intro hes
      rw [List.forall_mem_cons] at hes
      rw [compareEntries, ih hes.2]
      show _ = (e.1, verdictAt as bs e.1) :: _
      rw [verdictAt, hes.1]
      cases bs.lookup e.1 <;> rfl
  have has : ∀ e ∈ as, as.lookup e.1 = some e.2 := fun _ he => Entries.lookup_eq_some_of_mem h he
  rw [firstVerdict, hentries as has, ← List.map_mergeSort (r := fun k l => decide (k ≤ l))
    (fun _ _ _ _ => rfl), List.foldr_map]
  rfl

/-- Mappings compare by their sorted keys, and then by the first key whose values differ: what the
    program does in passes over lists, with the lists gone. -/
theorem compareWithin_mapping {as : Entries} (h : (Entries.keys as).Nodup) (bs : Entries) :
    compareWithin (mapping as) (mapping bs) =
      (Ord.compare (sortedKeys as) (sortedKeys bs)).then
        (firstOf (sortedKeys as) (verdictAt as bs)) := by
  rw [compareWithin, compareKeys_eq, firstVerdict_compareEntries h]

/-- The comparison of mappings turns around when that of their values does.  Values are only
    compared where the sorted keys agree, and then both sides go through the same keys. -/
theorem compareMapping_swap {as bs : Entries} (ha : (Entries.keys as).Nodup)
    (hb : (Entries.keys bs).Nodup)
    (h : ∀ e ∈ as, ∀ d ∈ bs, d.2.compare e.2 = (e.2.compare d.2).swap) :
    compareWithin (mapping bs) (mapping as) = (compareWithin (mapping as) (mapping bs)).swap := by
  rw [compareWithin_mapping ha, compareWithin_mapping hb, Ordering.swap_then,
    ← Std.OrientedOrd.eq_swap]
  apply then_congr
  intro hkeys
  have hsorted : sortedKeys bs = sortedKeys as := Std.LawfulEqOrd.eq_of_compare hkeys
  rw [hsorted]
  apply firstOf_swap
  intro k hk
  obtain ⟨v, hv, hva⟩ := exists_entry ha (mem_sortedKeys.1 hk)
  obtain ⟨w, hw, hwb⟩ := exists_entry hb (mem_sortedKeys.1 (hsorted ▸ hk))
  rw [verdictAt_eq hva hwb, verdictAt_eq hwb hva]
  exact h _ hv _ hw

/-- The verdicts on mappings follow when those on their values do.  The values are only asked for
    where all three mappings have the same keys. -/
theorem follows_compareMapping {as bs cs : Entries} (ha : (Entries.keys as).Nodup)
    (hb : (Entries.keys bs).Nodup) (hc : (Entries.keys cs).Nodup)
    (h : ∀ e ∈ as, ∀ d ∈ bs, ∀ c ∈ cs,
      Follows (e.2.compare d.2) (d.2.compare c.2) (e.2.compare c.2)) :
    Follows (compareWithin (mapping as) (mapping bs)) (compareWithin (mapping bs) (mapping cs))
      (compareWithin (mapping as) (mapping cs)) := by
  rw [compareWithin_mapping ha, compareWithin_mapping hb, compareWithin_mapping ha]
  refine (follows_compare (sortedKeys as) (sortedKeys bs) (sortedKeys cs)).then ?_
  intro hkeys hkeys'
  have hsorted : sortedKeys as = sortedKeys bs := Std.LawfulEqOrd.eq_of_compare hkeys
  have hsorted' : sortedKeys bs = sortedKeys cs := Std.LawfulEqOrd.eq_of_compare hkeys'
  rw [hsorted]
  apply follows_firstOf
  intro k hk
  obtain ⟨u, hu, hua⟩ := exists_entry ha (mem_sortedKeys.1 (hsorted ▸ hk))
  obtain ⟨v, hv, hvb⟩ := exists_entry hb (mem_sortedKeys.1 hk)
  obtain ⟨w, hw, hwc⟩ := exists_entry hc (mem_sortedKeys.1 (hsorted' ▸ hk))
  rw [verdictAt_eq hua hvb, verdictAt_eq hvb hwc, verdictAt_eq hua hwc]
  exact h _ hu _ hv _ hw

/-- A mapping is found in one with as many keys only if they have the same keys: the keys of the one
    are among those of the other, and there is no room for another. -/
theorem perm_keys_of_foundIn {as bs : Entries} (ha : (Entries.keys as).Nodup)
    (hlength : as.length = bs.length) (hfound : foundIn as bs = true) :
    (Entries.keys as).Perm (Entries.keys bs) := by
  have hsubset : Entries.keys as ⊆ Entries.keys bs := by
    intro k hk
    obtain ⟨e, he, rfl⟩ := List.mem_map.1 hk
    obtain ⟨w, hw, -⟩ := foundIn_iff.1 hfound e he
    obtain ⟨front, back, rfl, -⟩ := List.lookup_eq_some_iff.1 hw
    simp [Entries.keys]
  refine (List.subperm_of_subset ha hsubset).perm_of_length_le ?_
  simp [Entries.keys, hlength]

/-- Mappings compare as equal exactly when they are of one length and the one is found in the other:
    the equality of the program looks up each entry of one side and nothing else. -/
theorem compareMapping_eq_iff {as bs : Entries} (ha : (Entries.keys as).Nodup)
    (hb : (Entries.keys bs).Nodup)
    (h : ∀ e ∈ as, ∀ d ∈ bs, e.2.compare d.2 = .eq ↔ e.2.same d.2 = true) :
    compareWithin (mapping as) (mapping bs) = .eq ↔
      as.length = bs.length ∧ foundIn as bs = true := by
  rw [compareWithin_mapping ha, Ordering.then_eq_eq, Std.compare_eq_iff_eq, sortedKeys_eq_iff,
    firstOf_eq_iff]
  constructor
  · rintro ⟨hkeys, hverdicts⟩
    refine ⟨by simpa [Entries.keys] using hkeys.length_eq, foundIn_iff.2 ?_⟩
    intro e he
    have hk : e.1 ∈ Entries.keys as := List.mem_map_of_mem he
    have hva := Entries.lookup_eq_some_of_mem ha he
    obtain ⟨w, hw, hwb⟩ := exists_entry hb (hkeys.mem_iff.1 hk)
    refine ⟨w, hwb, (h e he _ hw).1 ?_⟩
    rw [← verdictAt_eq hva hwb]
    exact hverdicts _ (mem_sortedKeys.2 hk)
  · rintro ⟨hlength, hfound⟩
    have hkeys := perm_keys_of_foundIn ha hlength hfound
    refine ⟨hkeys, ?_⟩
    intro k hk
    obtain ⟨v, hv, hva⟩ := exists_entry ha (mem_sortedKeys.1 hk)
    obtain ⟨w, hw, hwb⟩ := exists_entry hb (hkeys.mem_iff.1 (mem_sortedKeys.1 hk))
    obtain ⟨w', hwb', hsame⟩ := foundIn_iff.1 hfound _ hv
    obtain rfl : w = w' := Option.some.inj (hwb.symm.trans hwb')
    rw [verdictAt_eq hva hwb]
    exact (h _ hv _ hw).2 hsame

/-! ## The laws of the order

  Each law is an induction on the first value, with the others arbitrary.  The case of a scalar is
  the law of its kind (`Decimal.compare_eq` for numbers), and the collections are above. -/

/-- The order turns around when its sides are exchanged.  Distinct keys are needed: each entry is
    compared with the one that is found under its key, and this has to be the same pair from both
    sides. -/
theorem compare_swap (ha : a.DistinctKeys) (hb : b.DistinctKeys) :
    b.compare a = (a.compare b).swap := by
  induction a using induct generalizing b with
  | null =>
    refine compare_swap_of_within fun hkind => ?_
    cases b with
    | null => rfl
    | _ => cases hkind
  | boolean x =>
    refine compare_swap_of_within fun hkind => ?_
    cases b with
    | boolean y => rfl
    | _ => cases hkind
  | number n =>
    refine compare_swap_of_within fun hkind => ?_
    cases b with
    | number m =>
      show m.compare n = (n.compare m).swap
      rw [Decimal.compare_eq, Decimal.compare_eq]
      exact Std.OrientedOrd.eq_swap
    | _ => cases hkind
  | string s =>
    refine compare_swap_of_within fun hkind => ?_
    cases b with
    | string t =>
      show Ord.compare t s = (Ord.compare s t).swap
      exact Std.OrientedOrd.eq_swap
    | _ => cases hkind
  | sequence as ih =>
    refine compare_swap_of_within fun hkind => ?_
    cases b with
    | sequence bs =>
      rw [distinctKeys_sequence] at ha hb
      exact compareItems_swap fun v hv w hw => ih v hv (ha v hv) (hb w hw)
    | _ => cases hkind
  | mapping as ih =>
    refine compare_swap_of_within fun hkind => ?_
    cases b with
    | mapping bs =>
      rw [distinctKeys_mapping] at ha hb
      exact compareMapping_swap ha.1 hb.1 fun e he d hd => ih e he (ha.2 e he) (hb.2 d hd)
    | _ => cases hkind

/-- Two verdicts of the order fix the third wherever they do not oppose each other.  By induction on
    the first value; values of different kinds are told apart by their ranks, so each case is about
    three values of one kind. -/
theorem follows_compare_values (ha : a.DistinctKeys) (hb : b.DistinctKeys)
    (hc : c.DistinctKeys) : Follows (a.compare b) (b.compare c) (a.compare c) := by
  induction a using induct generalizing b c with
  | null =>
    refine follows_of_within fun hab hbc => ?_
    cases b with
    | null =>
      cases c with
      | null => exact fun _ => rfl
      | _ => cases hbc
    | _ => cases hab
  | boolean x =>
    refine follows_of_within fun hab hbc => ?_
    cases b with
    | boolean y =>
      cases c with
      | boolean z => exact fun _ => rfl
      | _ => cases hbc
    | _ => cases hab
  | number n =>
    refine follows_of_within fun hab hbc => ?_
    cases b with
    | number m =>
      cases c with
      | number k =>
        simp only [compareWithin, Decimal.compare_eq]
        exact follows_compare n.value m.value k.value
      | _ => cases hbc
    | _ => cases hab
  | string s =>
    refine follows_of_within fun hab hbc => ?_
    cases b with
    | string t =>
      cases c with
      | string u => exact follows_compare s t u
      | _ => cases hbc
    | _ => cases hab
  | sequence as ih =>
    refine follows_of_within fun hab hbc => ?_
    cases b with
    | sequence bs =>
      cases c with
      | sequence cs =>
        rw [distinctKeys_sequence] at ha hb hc
        exact follows_compareItems fun u hu v hv w hw => ih u hu (ha u hu) (hb v hv) (hc w hw)
      | _ => cases hbc
    | _ => cases hab
  | mapping as ih =>
    refine follows_of_within fun hab hbc => ?_
    cases b with
    | mapping bs =>
      cases c with
      | mapping cs =>
        rw [distinctKeys_mapping] at ha hb hc
        exact follows_compareMapping ha.1 hb.1 hc.1 fun e he d hd c hcs =>
          ih e he (ha.2 e he) (hb.2 d hd) (hc.2 c hcs)
      | _ => cases hbc
    | _ => cases hab

/-- The order does not decide exactly between equal values.  Equality was written on its own, with
    look-ups in the place of sorting, so this is where the two are brought together. -/
theorem compare_eq_iff_same (ha : a.DistinctKeys) (hb : b.DistinctKeys) :
    a.compare b = .eq ↔ a.same b = true := by
  induction a using induct generalizing b with
  | null =>
    cases b with
    | null => exact ⟨fun _ => rfl, fun _ => rfl⟩
    | _ => exact of_kind_ne (by simp [kind])
  | boolean x =>
    cases b with
    | boolean y => cases x <;> cases y <;> decide
    | _ => exact of_kind_ne (by simp [kind])
  | number n =>
    cases b with
    | number m => exact Decimal.compare_eq_eq_iff
    | _ => exact of_kind_ne (by simp [kind])
  | string s =>
    cases b with
    | string t =>
      show Ord.compare s t = .eq ↔ (s == t) = true
      rw [Std.compare_eq_iff_eq, beq_iff_eq]
    | _ => exact of_kind_ne (by simp [kind])
  | sequence as ih =>
    cases b with
    | sequence bs =>
      rw [distinctKeys_sequence] at ha hb
      exact compareItems_eq_iff fun v hv w hw => ih v hv (ha v hv) (hb w hw)
    | _ => exact of_kind_ne (by simp [kind])
  | mapping as ih =>
    cases b with
    | mapping bs =>
      rw [distinctKeys_mapping] at ha hb
      show compareWithin (mapping as) (mapping bs) = .eq ↔
        (as.length == bs.length && foundIn as bs) = true
      rw [Bool.and_eq_true, beq_iff_eq]
      exact compareMapping_eq_iff ha.1 hb.1 fun e he d hd => ih e he (ha.2 e he) (hb.2 d hd)
    | _ => exact of_kind_ne (by simp [kind])

/-- A value is the same as itself; this follows from the order, which cannot be less both ways. -/
theorem same_self (ha : a.DistinctKeys) : a.same a = true := by
  have hself : a.compare a = .eq := by
    have hswap := compare_swap ha ha
    cases h : a.compare a with
    | eq => rfl
    | lt => rw [h] at hswap; cases hswap
    | gt => rw [h] at hswap; cases hswap
  exact (compare_eq_iff_same ha ha).1 hself

/-- Being the same goes both ways. -/
theorem same_comm (ha : a.DistinctKeys) (hb : b.DistinctKeys) : a.same b = b.same a := by
  rw [Bool.eq_iff_iff, ← compare_eq_iff_same ha hb, ← compare_eq_iff_same hb ha,
    compare_swap ha hb]
  cases a.compare b <;> decide

/-! ## The operators of queries

  An operator reads one verdict or excludes one.  Only equality is not read off the order when a
  string is compared with another scalar, so the law that one of three operators holds excludes this
  case. -/

/-- Whether one of two values is a string and the other a number, a truth value or null, so that
    the equality of queries looks at their texts. -/
def ComparedByText (a b : Value) : Prop :=
  (a.kind = .string ∧ b.isPlainScalar = true) ∨ (b.kind = .string ∧ a.isPlainScalar = true)

/-- The equality of queries is equality unless it looks at texts. -/
theorem looseSame_of_not_comparedByText (h : ¬ ComparedByText a b) :
    a.looseSame b = a.same b := by
  cases a <;> cases b <;> first | rfl | exact absurd (Or.inl ⟨rfl, rfl⟩) h |
    exact absurd (Or.inr ⟨rfl, rfl⟩) h

/-- A value equals itself: a string and another scalar are not one value, so the texts are not
    looked at. -/
theorem looseSame_self (ha : a.DistinctKeys) : a.looseSame a = true := by
  have hscalar : a.kind = .string → a.isPlainScalar = false := by
    intro hkind
    cases a <;> first | rfl | cases hkind
  rw [looseSame_of_not_comparedByText]
  · exact same_self ha
  · rintro (⟨hkind, h⟩ | ⟨hkind, h⟩) <;> rw [hscalar hkind] at h <;> cases h

/-- Comparing by text goes both ways too. -/
theorem looseSame_comm (ha : a.DistinctKeys) (hb : b.DistinctKeys) :
    a.looseSame b = b.looseSame a := by
  have hsame := same_comm ha hb
  cases a <;> cases b <;> first | exact hsame | rfl

end Value

namespace CompareOp

open Value

variable {a b : Value}

/-- The operator that asks for a verdict. -/
def ofVerdict : Ordering → CompareOp
  | .lt => less
  | .eq => equal
  | .gt => greater

/-- The operators read the verdict of the order; `==` does unless it looks at texts.  So the three
    operators exclude each other and cover all cases, as verdicts do. -/
theorem holds_ofVerdict_iff (ha : a.DistinctKeys) (hb : b.DistinctKeys)
    (h : ¬ ComparedByText a b) (o : Ordering) :
    (ofVerdict o).holds a b = true ↔ a.compare b = o := by
  cases o with
  | lt => exact beq_iff_eq
  | eq =>
    show a.looseSame b = true ↔ a.compare b = .eq
    rw [looseSame_of_not_comparedByText h, compare_eq_iff_same ha hb]
  | gt => exact beq_iff_eq

/-- **The order of values is total and agrees with equality, and the operators of queries agree with
    it and with each other**, for values whose mappings have distinct keys.  Exactly one of `<`,
    `==` and `>` holds of two values, unless `==` compares them by their texts. -/
theorem order_laws {a b c : Value} (ha : a.DistinctKeys) (hb : b.DistinctKeys)
    (hc : c.DistinctKeys) :
    (b.compare a = (a.compare b).swap ∧
      ((a.compare b).isLE → (b.compare c).isLE → (a.compare c).isLE) ∧
      (b.compare c = a.compare b → a.compare c = a.compare b) ∧
      (a.compare b = .eq ↔ a.same b = true)) ∧
    (equal.holds a a = true ∧ equal.holds a b = equal.holds b a) ∧
    notEqual.holds a b = !equal.holds a b ∧
    less.holds a b = greater.holds b a ∧
    lessEqual.holds a b = !less.holds b a ∧
    greaterEqual.holds a b = lessEqual.holds b a ∧
    (¬ ComparedByText a b → ∃! op, op ∈ [less, equal, greater] ∧ op.holds a b = true) := by
  have hswap := compare_swap ha hb
  have hfollows := follows_compare_values ha hb hc
  refine ⟨⟨hswap, hfollows.isLE, hfollows.of_eq, compare_eq_iff_same ha hb⟩,
    ⟨looseSame_self ha, looseSame_comm ha hb⟩, rfl, ?_, ?_, ?_, ?_⟩
  · show (a.compare b == .lt) = (b.compare a == .gt)
    rw [hswap]
    cases a.compare b <;> rfl
  · show (a.compare b != .gt) = !(b.compare a == .lt)
    rw [hswap]
    cases a.compare b <;> rfl
  · show (a.compare b != .lt) = (b.compare a != .gt)
    rw [hswap]
    cases a.compare b <;> rfl
  · intro htext
    have hholds := holds_ofVerdict_iff ha hb htext
    refine ⟨ofVerdict (a.compare b), ⟨?_, (hholds _).2 rfl⟩, ?_⟩
    · cases a.compare b <;> simp [ofVerdict]
    · rintro op ⟨hop, hop'⟩
      -- each of the three asks for a verdict of its own
      obtain ⟨o, rfl⟩ : ∃ o, op = ofVerdict o := by
        simp only [List.mem_cons, List.not_mem_nil, or_false] at hop
        rcases hop with rfl | rfl | rfl
        · exact ⟨.lt, rfl⟩
        · exact ⟨.eq, rfl⟩
        · exact ⟨.gt, rfl⟩
      rw [(hholds o).1 hop']

/-- The laws on mappings whose entries stand in different orders and whose numbers have different
    scales; the third one comes after the others, by an element of a sequence in it. -/
theorem order_laws_nested :
    let x (m s : Nat) (hm : m < Decimal.limit) (hs : s ≤ Decimal.maxScale) : String × Value :=
      ("x", .number ⟨false, m, s, hm, hs⟩)
    let y (first : Value) : String × Value :=
      ("y", .sequence [first, .mapping [("k", .string "5"), ("l", .boolean true)]])
    let a := Value.mapping [x 150 2 (by decide) (by decide), y .null]
    let b := Value.mapping [y .null, x 15 1 (by decide) (by decide)]
    let c := Value.mapping [x 15 1 (by decide) (by decide), y (.boolean false)]
    (a.DistinctKeys ∧ b.DistinctKeys ∧ c.DistinctKeys) ∧
      (a.compare b = .eq ∧ b.compare c = .lt ∧ (a.compare c).isLE) ∧
      ∃! op, op ∈ [less, equal, greater] ∧ op.holds a b = true := by
  intro x y a b c
  have ha : a.DistinctKeys := by decide
  have hb : b.DistinctKeys := by decide
  have hc : c.DistinctKeys := by decide
  have laws := order_laws ha hb hc
  have hab : a.compare b = .eq := laws.1.2.2.2.2 (by decide)
  have hbc : b.compare c = .lt := by
    have hsorted : sortedKeys [x 15 1 (by decide) (by decide), y (.boolean false)] = ["x", "y"] :=
      List.mergeSort_of_pairwise (by decide)
    have hkeys : sortedKeys [y .null, x 15 1 (by decide) (by decide)] =
        sortedKeys [x 15 1 (by decide) (by decide), y (.boolean false)] :=
      sortedKeys_eq_iff.2 (by decide)
    show compareWithin b c = .lt
    rw [compareWithin_mapping (by decide), hkeys, hsorted]
    decide
  have htext : ¬ ComparedByText a b := by
    rintro (⟨h, -⟩ | ⟨h, -⟩) <;> cases h
  refine ⟨⟨ha, hb, hc⟩, ⟨hab, hbc, laws.1.2.1 ?_ ?_⟩, laws.2.2.2.2.2.2 htext⟩
  · rw [hab]
    rfl
  · rw [hbc]
    rfl

/-- The text `5` equals the number and comes after it. -/
example : equal.holds (.string "5") (.ofNat 5) = true ∧
    greater.holds (.string "5") (.ofNat 5) = true := by decide

end CompareOp

end BlockQuery

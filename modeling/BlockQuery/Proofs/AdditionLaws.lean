/-
  Sums and differences of values that are not numbers.

  `+` joins two values of one kind, and null with anything (`Joined`).  In each kind joining is
  associative: texts and sequences are appended, and entries are put one after the other, where it
  makes no difference which of them were put together first, as long as a key stands for one entry.
  What is joined has the kind of its parts, so one grouping joins what the other one does, and where
  one grouping fails both do.

  `-` takes out of a sequence what equals an element of another one.  It looks at one element at a
  time, so it may be done in two steps and on the two parts of a sequence.

  Numbers are the exception: in the middle of a sum there may be an overflow.

  Sums are compared through a relation: `Joined a b v` says that `v` is what `a` and `b` are joined
  to, and a grouping of a sum has a result when there is a value in the middle for it.  So the law
  is that such a value for one grouping gives one for the other (`Joined.regroup_right`,
  `Joined.regroup_left`), by cases on the kinds, and the errors, which name different operations,
  are never compared.
-/
import BlockQuery.Proofs.Entries
import BlockQuery.Proofs.IntegerDivision
import BlockQuery.Proofs.Regrouped
import BlockQuery.Proofs.Tree

namespace BlockQuery

/-! ## Entries in three parts

  A key of the middle part that stands in both others is put at its place in the first part, with
  the value of the last.  The two groupings do this in different orders. -/

/-- The entries in the middle may be joined with those in front or with those behind first. -/
theorem Entries.extend_extend {α : Type} {fs : List (String × α)} (h : (keys fs).Nodup)
    (es gs : List (String × α)) : extend (extend es fs) gs = extend es (extend fs gs) := by
  have hgather : extend fs gs = ofPairs (fs ++ gs) := by
    rw [ofPairs_append, extend_ofPairs, ofPairs_of_nodup h]
  rw [hgather, extend_ofPairs]
  exact (List.foldl_append ..).symm

namespace Value

/-! ## Sums

  Each case of the relation is one kind of sum.  Only two of them do more than put the parts one
  after the other: numbers, which may leave the range, and mappings, which share keys. -/

/-- What `+` makes of two values. -/
inductive Joined : Value → Value → Value → Prop
  | nullLeft (b : Value) : Joined .null b b
  | nullRight (a : Value) : Joined a .null a
  | number {m n d : Decimal} (sum : m.add? n = some d) : Joined (.number m) (.number n) (.number d)
  | string (s t : String) : Joined (.string s) (.string t) (.string (s ++ t))
  | sequence (xs ys : List Value) : Joined (.sequence xs) (.sequence ys) (.sequence (xs ++ ys))
  | mapping (es fs : Entries) :
      Joined (.mapping es) (.mapping fs) (.mapping (Entries.extend es fs))

variable {operation inner outer inner' outer' : Expr} {a b c d v : Value}

/-- A sum of numbers is a number, if there is one in range. -/
theorem numberOr_eq_ok_iff {n : Option Decimal} :
    numberOr operation n = .ok v ↔ ∃ d, n = some d ∧ v = .number d := by
  cases n with
  | none => simp [numberOr]
  | some d => simp [numberOr, eq_comm]

/-- `+` has a result where the values can be joined, and it is what they are joined to. -/
theorem apply_add_eq_ok_iff : ArithOp.add.apply operation a b = .ok v ↔ Joined a b v := by
  constructor
  · intro h
    unfold ArithOp.apply at h
    split at h
    any_goals contradiction
    · cases h
      exact .nullLeft v
    · cases h
      exact .nullRight v
    · obtain ⟨d, hsum, rfl⟩ := numberOr_eq_ok_iff.1 h
      exact .number hsum
    · cases h
      exact .string _ _
    · cases h
      exact .sequence _ _
    · cases h
      exact .mapping _ _
  · intro h
    cases h with
    | nullLeft => rfl
    | nullRight => cases a <;> rfl
    | number hsum => exact numberOr_eq_ok_iff.2 ⟨_, hsum, rfl⟩
    | string | sequence | mapping => rfl

/-- What is joined from the left is joined from the right, if not all parts are numbers and the one
    in the middle has distinct keys. -/
theorem Joined.regroup_right (hb : b.DistinctKeys)
    (hnumber : a.kind ≠ .number ∨ b.kind ≠ .number ∨ c.kind ≠ .number)
    (hab : Joined a b d) (hdc : Joined d c v) : ∃ d', Joined b c d' ∧ Joined a d' v := by
  cases hab with
  | nullLeft => exact ⟨v, hdc, .nullLeft v⟩
  | nullRight => exact ⟨c, .nullLeft c, hdc⟩
  | number hsum =>
    cases hdc with
    | nullRight => exact ⟨_, .nullRight _, .number hsum⟩
    | number => simp [kind] at hnumber
  | string s t =>
    cases hdc with
    | nullRight => exact ⟨_, .nullRight _, .string s t⟩
    | string _ u =>
      rw [String.append_assoc]
      exact ⟨_, .string t u, .string s _⟩
  | sequence xs ys =>
    cases hdc with
    | nullRight => exact ⟨_, .nullRight _, .sequence xs ys⟩
    | sequence _ zs =>
      rw [List.append_assoc]
      exact ⟨_, .sequence ys zs, .sequence xs _⟩
  | mapping es fs =>
    cases hdc with
    | nullRight => exact ⟨_, .nullRight _, .mapping es fs⟩
    | mapping _ gs =>
      rw [Entries.extend_extend (distinctKeys_mapping.1 hb).1]
      exact ⟨_, .mapping fs gs, .mapping es _⟩

/-- And the other way round. -/
theorem Joined.regroup_left (hb : b.DistinctKeys)
    (hnumber : a.kind ≠ .number ∨ b.kind ≠ .number ∨ c.kind ≠ .number)
    (hbc : Joined b c d) (had : Joined a d v) : ∃ d', Joined a b d' ∧ Joined d' c v := by
  cases hbc with
  | nullLeft => exact ⟨a, .nullRight a, had⟩
  | nullRight => exact ⟨v, had, .nullRight v⟩
  | number hsum =>
    cases had with
    | nullLeft => exact ⟨_, .nullLeft _, .number hsum⟩
    | number => simp [kind] at hnumber
  | string t u =>
    cases had with
    | nullLeft => exact ⟨_, .nullLeft _, .string t u⟩
    | string s _ =>
      rw [← String.append_assoc]
      exact ⟨_, .string s t, .string _ u⟩
  | sequence ys zs =>
    cases had with
    | nullLeft => exact ⟨_, .nullLeft _, .sequence ys zs⟩
    | sequence xs _ =>
      rw [← List.append_assoc]
      exact ⟨_, .sequence xs ys, .sequence _ zs⟩
  | mapping fs gs =>
    cases had with
    | nullLeft => exact ⟨_, .nullLeft _, .mapping fs gs⟩
    | mapping es _ =>
      rw [← Entries.extend_extend (distinctKeys_mapping.1 hb).1]
      exact ⟨_, .mapping es fs, .mapping _ gs⟩

/-- The two groupings of a sum have the same result or both fail. -/
theorem toOption_add_add (hb : b.DistinctKeys)
    (hnumber : a.kind ≠ .number ∨ b.kind ≠ .number ∨ c.kind ≠ .number) :
    (ArithOp.add.apply inner a b >>= (ArithOp.add.apply outer · c)).toOption =
      (ArithOp.add.apply inner' b c >>= ArithOp.add.apply outer' a).toOption := by
  ext v
  simp only [toOption_eq_some_iff, bind_eq_ok, apply_add_eq_ok_iff]
  constructor
  · rintro ⟨d, hab, hdc⟩
    exact hab.regroup_right hb hnumber hdc
  · rintro ⟨d, hbc, had⟩
    exact hbc.regroup_left hb hnumber had

/-- Null is the only value of its kind. -/
theorem eq_null_of_kind (h : v.kind = .null) : v = null := by
  cases v with
  | null => rfl
  | _ => cases h

/-- Values of one kind are joined, null among them or not, unless they are truth values or
    numbers. -/
theorem exists_joined {kind : Kind} (hboolean : kind ≠ .boolean) (hnumber : kind ≠ .number)
    (ha : a.kind = .null ∨ a.kind = kind) (hb : b.kind = .null ∨ b.kind = kind) :
    ∃ d, Joined a b d ∧ (d.kind = .null ∨ d.kind = kind) := by
  rcases ha with ha | rfl
  · obtain rfl := eq_null_of_kind ha
    exact ⟨b, .nullLeft b, hb⟩
  rcases hb with hb | hb
  · obtain rfl := eq_null_of_kind hb
    exact ⟨a, .nullRight a, Or.inr rfl⟩
  cases a with
  | null => exact ⟨b, .nullLeft b, Or.inr hb⟩
  | boolean => exact absurd rfl hboolean
  | number => exact absurd rfl hnumber
  | string s =>
    cases b with
    | string t => exact ⟨_, .string s t, Or.inr rfl⟩
    | _ => cases hb
  | sequence xs =>
    cases b with
    | sequence ys => exact ⟨_, .sequence xs ys, Or.inr rfl⟩
    | _ => cases hb
  | mapping es =>
    cases b with
    | mapping fs => exact ⟨_, .mapping es fs, Or.inr rfl⟩
    | _ => cases hb

/-! ## Differences

  What is left of a sequence is a filter, and filters go one behind the other and over appended
  lists.  So the laws of differences are those of lists. -/

/-- The elements of `xs` that equal none of `ys`. -/
def remaining (xs ys : List Value) : List Value :=
  xs.filter fun x => !ys.any fun y => y.same x

/-- Taking out in two steps is taking out both at once. -/
theorem remaining_remaining (xs ys zs : List Value) :
    remaining (remaining xs ys) zs = remaining xs (ys ++ zs) := by
  simp only [remaining, List.filter_filter, List.any_append, Bool.not_or, Bool.and_comm]

/-- Taking out of a sequence in two parts is taking out of each. -/
theorem remaining_append (xs ys zs : List Value) :
    remaining (xs ++ ys) zs = remaining xs zs ++ remaining ys zs :=
  List.filter_append ..

end Value

namespace Expr

/-! ## Sums and differences of operands

  The laws of values are carried over to expressions: where each operand emits one value, an
  operation emits what it makes of these. -/

variable {options : EvalOptions} {l m r : Expr} {input a b c d : Value} {xs ys : List Value}

/-- The sum of two sequences has the elements of both. -/
theorem eval_add_sequence (hl : eval options l input = .ok [.sequence xs])
    (hm : eval options m input = .ok [.sequence ys]) :
    eval options (arithmetic .add l m) input = .ok [.sequence (xs ++ ys)] :=
  eval_arithmetic hl hm

/-- The difference has those of the first that equal none of the second. -/
theorem eval_subtract_sequence (hl : eval options l input = .ok [.sequence xs])
    (hm : eval options m input = .ok [.sequence ys]) :
    eval options (arithmetic .subtract l m) input = .ok [.sequence (Value.remaining xs ys)] :=
  eval_arithmetic hl hm

/-- What a sum emits is what its operands are joined to. -/
theorem eval_add_iff (hl : eval options l input = .ok [a]) (hm : eval options m input = .ok [b]) :
    eval options (arithmetic .add l m) input = .ok [d] ↔ Value.Joined a b d := by
  rw [eval_arithmetic hl hm, map_eq_ok]
  simp [Value.apply_add_eq_ok_iff]

/-- **Sums and differences obey their algebra.** On operands of one value each, the two groupings of
    a sum of values that are not all numbers emit the same value or both fail, and they emit one if
    the values that are not null are all strings, all sequences or all mappings; null changes
    nothing on either side; and on sequences, what is taken out in two steps may be taken out at
    once, and taking out of a sum is taking out of both its parts. -/
theorem eval_addition_laws (hl : eval options l input = .ok [a]) (hm : eval options m input = .ok [b])
    (hr : eval options r input = .ok [c]) :
    (b.DistinctKeys →
      ((a.kind ≠ .number ∨ b.kind ≠ .number ∨ c.kind ≠ .number) →
        (eval options (arithmetic .add (arithmetic .add l m) r) input).toOption =
          (eval options (arithmetic .add l (arithmetic .add m r)) input).toOption) ∧
      ∀ kind, kind ≠ .boolean → kind ≠ .number →
        (∀ v ∈ [a, b, c], v.kind = .null ∨ v.kind = kind) →
        ∃ d, eval options (arithmetic .add (arithmetic .add l m) r) input = .ok [d] ∧
          eval options (arithmetic .add l (arithmetic .add m r)) input = .ok [d]) ∧
    (∀ null, eval options null input = .ok [.null] →
      eval options (arithmetic .add null l) input = .ok [a] ∧
      eval options (arithmetic .add l null) input = .ok [a]) ∧
    ∀ xs ys zs, a = .sequence xs → b = .sequence ys → c = .sequence zs →
      (∃ items,
        eval options (arithmetic .subtract (arithmetic .subtract l m) r) input =
          .ok [.sequence items] ∧
        eval options (arithmetic .subtract l (arithmetic .add m r)) input =
          .ok [.sequence items]) ∧
      ∃ items,
        eval options (arithmetic .subtract (arithmetic .add l m) r) input =
          .ok [.sequence items] ∧
        eval options (arithmetic .add (arithmetic .subtract l r) (arithmetic .subtract m r)) input =
          .ok [.sequence items] := by
  refine ⟨fun hb => ⟨?_, ?_⟩, ?_, ?_⟩
  · intro hnumber
    rw [eval_arithmetic_map (y := .ok c) (eval_arithmetic hl hm) hr,
      eval_arithmetic_map (x := .ok a) hl (eval_arithmetic hm hr)]
    exact toOption_map_congr (Value.toOption_add_add hb hnumber) _
  · intro kind hboolean hnumber hkinds
    obtain ⟨hka, hkb, hkc⟩ : _ ∧ _ ∧ _ := by simpa using hkinds
    obtain ⟨d, hab, hkd⟩ := Value.exists_joined hboolean hnumber hka hkb
    obtain ⟨v, hdc, -⟩ := Value.exists_joined hboolean hnumber hkd hkc
    -- joined from the left, the values are joined from the right too
    have hsome : a.kind ≠ .number := by
      rcases hka with h | h
      · simp [h]
      · exact h ▸ hnumber
    obtain ⟨d', hbc, had⟩ := hab.regroup_right hb (Or.inl hsome) hdc
    exact ⟨v, (eval_add_iff ((eval_add_iff hl hm).2 hab) hr).2 hdc,
      (eval_add_iff hl ((eval_add_iff hm hr).2 hbc)).2 had⟩
  · intro null hnull
    exact ⟨(eval_add_iff hnull hl).2 (.nullLeft a), (eval_add_iff hl hnull).2 (.nullRight a)⟩
  · rintro xs ys zs rfl rfl rfl
    refine ⟨⟨_, eval_subtract_sequence (eval_subtract_sequence hl hm) hr, ?_⟩,
      _, eval_subtract_sequence (eval_add_sequence hl hm) hr, ?_⟩
    · rw [Value.remaining_remaining]
      exact eval_subtract_sequence hl (eval_add_sequence hm hr)
    · rw [Value.remaining_append]
      exact eval_add_sequence (eval_subtract_sequence hl hr) (eval_subtract_sequence hm hr)

/-- Three mappings that share their keys in pairs, a text between two of them, and three sequences
    with elements in common. -/
theorem eval_addition_laws_repeated :
    let es := Value.mapping [("x", .null), ("y", .boolean false)]
    let fs := Value.mapping [("z", .null), ("x", .boolean true)]
    let gs := Value.mapping [("y", .string "last"), ("z", .null)]
    let joined := Value.mapping [("x", .boolean true), ("y", .string "last"), ("z", .null)]
    let text := Value.string "text"
    let xs := [Value.string "p", .string "q", .string "p", .string "r"]
    let ys := [Value.string "q", .string "s"]
    let zs := [Value.string "r"]
    (eval {} (literal es) .null = .ok [es] ∧ fs.DistinctKeys ∧
      eval {} (arithmetic .add (arithmetic .add (literal es) (literal fs)) (literal gs)) .null =
        .ok [joined] ∧
      eval {} (arithmetic .add (literal es) (arithmetic .add (literal fs) (literal gs))) .null =
        .ok [joined]) ∧
    (text.DistinctKeys ∧
      (eval {} (arithmetic .add (arithmetic .add (literal es) (literal text)) (literal gs))
        .null).toOption = none ∧
      (eval {} (arithmetic .add (literal es) (arithmetic .add (literal text) (literal gs)))
        .null).toOption = none) ∧
    eval {} (arithmetic .add (literal .null) (literal es)) .null = .ok [es] ∧
    ∃ items,
      eval {} (arithmetic .subtract (arithmetic .subtract (literal (.sequence xs))
        (literal (.sequence ys))) (literal (.sequence zs))) .null = .ok [.sequence items] ∧
      eval {} (arithmetic .subtract (literal (.sequence xs)) (arithmetic .add
        (literal (.sequence ys)) (literal (.sequence zs)))) .null = .ok [.sequence items] := by
  intro es fs gs joined text xs ys zs
  have hliteral : ∀ v, eval {} (literal v) .null = .ok [v] := fun _ => rfl
  have hfront : eval {} (arithmetic .add (arithmetic .add (literal es) (literal fs)) (literal gs))
      .null = .ok [joined] := rfl
  have hfails : (eval {} (arithmetic .add (arithmetic .add (literal es) (literal text))
      (literal gs)) .null).toOption = none := rfl
  have hdistinct : fs.DistinctKeys := by decide
  have hdistinct' : text.DistinctKeys := by decide
  obtain ⟨hjoins, hnull, -⟩ := eval_addition_laws (hliteral es) (hliteral fs) (hliteral gs)
  obtain ⟨d, hd, hback⟩ := (hjoins hdistinct).2 .mapping (by decide) (by decide) (by decide)
  obtain rfl : joined = d := List.singleton_inj.1 (Except.ok.inj (hfront.symm.trans hd))
  obtain ⟨hgroups, -⟩ := eval_addition_laws (hliteral es) (hliteral text) (hliteral gs)
  obtain ⟨-, -, hsequences⟩ := eval_addition_laws (hliteral (.sequence xs))
    (hliteral (.sequence ys)) (hliteral (.sequence zs))
  exact ⟨⟨hliteral es, hdistinct, hfront, hback⟩,
    ⟨hdistinct', hfails, ((hgroups hdistinct').1 (Or.inl (by decide))).symm.trans hfails⟩,
    (hnull (literal .null) (hliteral .null)).1, (hsequences xs ys zs rfl rfl rfl).1⟩

/-- Three numbers are another matter: the sum of the first two may be too great. -/
example :
    let greatest := literal (Value.ofNat (Decimal.limit - 1))
    let one := literal (Value.ofNat 1)
    let less := literal (.number (Decimal.ofNat 1).neg)
    (eval {} (arithmetic .add (arithmetic .add greatest one) less) .null).isOk = false ∧
      (eval {} (arithmetic .add greatest (arithmetic .add one less)) .null).isOk = true := by
  decide

end Expr

end BlockQuery

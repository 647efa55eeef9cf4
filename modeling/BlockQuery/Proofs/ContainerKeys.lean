/-
  Asking for a key, listing the keys, and going to a child.

  For a mapping `has`, `keys` and the step along a path look at one list of keys, and agree.  For a
  sequence each has its own account of the indices: `has` looks at the sign, the fraction and the
  whole part of a number, `keys` lists natural numbers, which are compared by value, and a step
  takes an integer.  A number is a natural number by its value exactly when its digits are a
  multiple of the unit and its sign is plus, or it is zero (`value_eq_natCast_iff`).  The zero with
  a minus sign is where the accounts part: by its value it is an index, but `has` goes by its sign.
  Everywhere else they agree.
-/
import BlockQuery.Proofs.Entries
import BlockQuery.Proofs.Places
import BlockQuery.Proofs.Verdict
import BlockQuery.Query.Eval

namespace BlockQuery

open BlockQuery.Derivation

namespace Decimal

/-! ## Numbers that are natural

  A number may be written with a fraction and still be an index, as 1.0 is.  So the conditions are
  on the value, and what `has` computes is shown to be one of them. -/

/-- Whether a number is a zero with a minus sign. -/
def isNegativeZero (n : Decimal) : Bool :=
  n.negative && n.isZero

/-- A number is an integer by its value when its digits are that many units. -/
theorem value_eq_intCast_iff {n : Decimal} {i : Int} :
    n.value = i ↔ n.signed = i * tenTo n.scale := by
  have hpos : (tenTo n.scale : ℚ) ≠ 0 := Nat.cast_ne_zero.2 (tenTo_pos n.scale).ne'
  rw [value, div_eq_iff hpos]
  exact_mod_cast Iff.rfl

/-- The digits of a number with the value of a natural number are a multiple of the unit; a minus
    sign is left to zero only. -/
theorem value_eq_natCast_iff {n : Decimal} {k : Nat} :
    n.value = k ↔ n.mantissa = k * tenTo n.scale ∧ (n.negative = true → n.mantissa = 0) := by
  have hsigned : n.value = k ↔ n.signed = ((k * tenTo n.scale : Nat) : Int) := by
    rw [Nat.cast_mul]
    exact value_eq_intCast_iff (i := k)
  rw [hsigned, signed]
  cases n.negative with
  | true =>
    rw [if_pos rfl]
    constructor
    · intro h
      exact ⟨by omega, fun _ => by omega⟩
    · rintro ⟨h, hzero⟩
      have hmantissa := hzero rfl
      omega
  | false =>
    rw [if_neg (by simp), Int.natCast_inj]
    exact ⟨fun h => ⟨h, by simp⟩, And.left⟩

/-- The number that stands for a natural number has its value, or is the greatest number. -/
theorem value_ofNat (k : Nat) : (ofNat k).value = (min k (limit - 1) : Nat) :=
  value_eq_natCast_iff.2 ⟨(Nat.mul_one _).symm, nofun⟩

/-- A natural number that is the value of a number is in range. -/
theorem lt_limit_of_value {n : Decimal} {k : Nat} (h : n.value = k) : k < limit := by
  have hdigits := (value_eq_natCast_iff.1 h).1
  calc k ≤ k * tenTo n.scale := Nat.le_mul_of_pos_right k (tenTo_pos n.scale)
    _ = n.mantissa := hdigits.symm
    _ < limit := n.mantissa_lt

/-- What `has` looks at: no sign, no fraction, and a whole part below the length. -/
theorem isIndex_iff {n : Decimal} {length : Nat} :
    (!n.negative && n.isInteger && n.wholePart < length) = true ↔
      n.isNegativeZero = false ∧ ∃ k < length, n.value = k := by
  have hpos := tenTo_pos n.scale
  simp only [Bool.and_eq_true, Bool.not_eq_true', decide_eq_true_eq, isInteger, beq_iff_eq,
    isNegativeZero, isZero, Bool.and_eq_false_iff, beq_eq_false_iff_ne]
  constructor
  · rintro ⟨⟨hsign, hunit⟩, hlt⟩
    refine ⟨Or.inl hsign, n.wholePart, hlt, value_eq_natCast_iff.2 ⟨?_, ?_⟩⟩
    · exact (Nat.div_mul_cancel (Nat.dvd_of_mod_eq_zero hunit)).symm
    · simp [hsign]
  · rintro ⟨hzero, k, hk, hvalue⟩
    obtain ⟨hdigits, hminus⟩ := value_eq_natCast_iff.1 hvalue
    have hsign : n.negative = false := by
      rcases hzero with hsign | hne
      · exact hsign
      · exact Bool.eq_false_iff.2 fun hsign => hne (hminus hsign)
    refine ⟨⟨hsign, ?_⟩, ?_⟩
    · rw [hdigits, Nat.mul_mod_left]
    · rw [wholePart, hdigits, Nat.mul_div_cancel k hpos]
      exact hk

end Decimal

namespace Value

/-! ## Listed keys

  Listed keys are values, and asking whether a key is among them compares values.  For indices this
  is comparing numbers by value. -/

/-- An index that is listed for a sequence is a natural number below its length. -/
theorem exists_index_same_iff {n : Decimal} {length : Nat} :
    (∃ key ∈ (List.range length).map ofNat, key.same (number n) = true) ↔
      ∃ k < length, n.value = k := by
  have hsame : ∀ k, (ofNat k).same (number n) = true ↔ n.value = (Decimal.ofNat k).value :=
    fun k => Decimal.sameValue_iff.trans eq_comm
  simp only [List.mem_map, List.mem_range, exists_exists_and_eq_and, hsame]
  constructor
  · rintro ⟨k, hk, hvalue⟩
    -- beyond the range of numbers an index is listed as the greatest number, which is one too
    rw [Decimal.value_ofNat] at hvalue
    exact ⟨_, Nat.lt_of_le_of_lt (Nat.min_le_left _ _) hk, hvalue⟩
  · rintro ⟨k, hk, hvalue⟩
    have hrange := Decimal.lt_limit_of_value hvalue
    exact ⟨k, hk, by rw [Decimal.value_ofNat, Nat.min_eq_left (by omega), hvalue]⟩

/-- A key that is listed for a mapping is one of its keys. -/
theorem exists_key_same_iff {key : String} {es : Entries} :
    (∃ k ∈ (Entries.keys es).map string, k.same (string key) = true) ↔ key ∈ Entries.keys es := by
  simp [same]

end Value

namespace Expr

/-! ## Three accounts of the keys

  The key is what an expression emits, so `has` is first reduced to its answer for that one
  value. -/

variable {options : EvalOptions} {e : Expr}

/-- On a mapping and a string, `has` looks among the keys. -/
theorem eval_has_mapping {es : Entries} {key : String} (hnested : options.nestedHas = false)
    (he : eval options e (.mapping es) = .ok [.string key]) :
    eval options (call .has [e]) (.mapping es) = .ok [.boolean (Entries.hasKey key es)] := by
  rw [eval, he]
  show Except.ok [Value.boolean (if options.nestedHas then _ else _)] = _
  rw [hnested, if_neg (by simp)]

/-- On a sequence and a number, it looks at the sign, the fraction and the whole part. -/
theorem eval_has_sequence {items : List Value} {n : Decimal}
    (he : eval options e (.sequence items) = .ok [.number n]) :
    eval options (call .has [e]) (.sequence items) =
      .ok [.boolean (!n.negative && n.isInteger && n.wholePart < items.length)] := by
  rw [eval, he]
  rfl

/-- **Asking, listing and going agree, but for a negative zero.** A mapping has a key, outside the
    nested mode, exactly when some listed key equals it, and when its step leads to a node.  A
    number equals a listed index of a sequence exactly when it is an integer from 0 and below the
    length, and then the index emits one value; the sequence has it exactly then, if it is no zero
    with a minus sign.  So of two equal numbers, neither of them such a zero, it has both or
    none. -/
theorem eval_has_listed (options : EvalOptions) (e : Expr) :
    (∀ es key, options.nestedHas = false →
      eval options e (.mapping es) = .ok [.string key] →
      ∃ keys answer, eval options (call .keys []) (.mapping es) = .ok [.sequence keys] ∧
        eval options (call .has [e]) (.mapping es) = .ok [.boolean answer] ∧
        (answer = true ↔ ∃ k ∈ keys, k.same (.string key) = true) ∧
        (answer = true ↔ ∃ v, (Value.mapping es).lookup? [.field key] = some v)) ∧
    ∀ items n, eval options e (.sequence items) = .ok [.number n] →
      (∃ keys answer, eval options (call .keys []) (.sequence items) = .ok [.sequence keys] ∧
        eval options (call .has [e]) (.sequence items) = .ok [.boolean answer] ∧
        ((∃ k ∈ keys, k.same (.number n) = true) ↔
          ∃ i : Int, 0 ≤ i ∧ i < items.length ∧ n.value = i) ∧
        (answer = true ↔ n.isNegativeZero = false ∧ ∃ k ∈ keys, k.same (.number n) = true)) ∧
      (∀ i : Int, 0 ≤ i → i < items.length → n.value = i →
        ∃ v, eval options (index i) (.sequence items) = .ok [v]) ∧
      ∀ e' m, eval options e' (.sequence items) = .ok [.number m] → m.sameValue n = true →
        m.isNegativeZero = n.isNegativeZero →
        eval options (call .has [e']) (.sequence items) =
          eval options (call .has [e]) (.sequence items) := by
  refine ⟨?_, ?_⟩
  · intro es key hnested he
    refine ⟨_, _, rfl, eval_has_mapping hnested he, ?_, ?_⟩
    · rw [Value.exists_key_same_iff, Entries.hasKey_iff]
    · have hlookup : (Value.mapping es).lookup? [.field key] = es.lookup key := by
        simp only [Value.lookup?, Value.child?]
        cases es.lookup key <;> rfl
      rw [hlookup, Entries.hasKey, Option.isSome_iff_exists]
  · intro items n he
    refine ⟨⟨_, _, rfl, eval_has_sequence he, ?_, ?_⟩, ?_, ?_⟩
    · rw [Value.exists_index_same_iff]
      constructor
      · rintro ⟨k, hk, hvalue⟩
        exact ⟨k, by omega, by omega, by simpa using hvalue⟩
      · rintro ⟨i, hi, hlt, hvalue⟩
        obtain ⟨k, rfl⟩ := Int.eq_ofNat_of_zero_le hi
        exact ⟨k, by omega, by simpa using hvalue⟩
    · rw [Value.exists_index_same_iff, Decimal.isIndex_iff]
    · intro i hi hlt _
      obtain ⟨k, rfl⟩ := Int.eq_ofNat_of_zero_le hi
      have hk : k < items.length := by omega
      refine ⟨items[k], ?_⟩
      have hresolve : resolveIndex? (k : Int) items.length = some k := if_pos hi
      rw [eval, elementAt, hresolve, Option.bind_some, List.getElem?_eq_getElem hk]
      rfl
    · intro e' m he' hsame hzero
      have hvalue := Decimal.sameValue_iff.1 hsame
      rw [eval_has_sequence he', eval_has_sequence he]
      congr 3
      rw [Bool.eq_iff_iff, Decimal.isIndex_iff, Decimal.isIndex_iff, hvalue, hzero]

/-- A key of a mapping, and the index one of a sequence, written with a fraction and without. -/
theorem eval_has_listed_fraction :
    let es := [("a", Value.null), ("b", .boolean true)]
    let items := [Value.null, .boolean true]
    let one : Decimal := ⟨false, 1, 0, by decide, by decide⟩
    let fraction : Decimal := ⟨false, 10, 1, by decide, by decide⟩
    (eval {} (literal (.string "b")) (.mapping es) = .ok [.string "b"] ∧
      eval {} (call .has [literal (.string "b")]) (.mapping es) = .ok [.boolean true]) ∧
    (eval {} (literal (.number fraction)) (.sequence items) = .ok [.number fraction] ∧
      eval {} (call .has [literal (.number fraction)]) (.sequence items) = .ok [.boolean true] ∧
      ∃ v, eval {} (index 1) (.sequence items) = .ok [v]) ∧
    (one.sameValue fraction = true ∧ one.isNegativeZero = fraction.isNegativeZero ∧
      eval {} (call .has [literal (.number one)]) (.sequence items) =
        eval {} (call .has [literal (.number fraction)]) (.sequence items)) := by
  intro es items one fraction
  have hkey : eval {} (literal (.string "b")) (.mapping es) = .ok [.string "b"] := rfl
  have hindex : eval {} (literal (.number fraction)) (.sequence items) = .ok [.number fraction] :=
    rfl
  obtain ⟨keys, answer, hkeys, hanswer, hlisted, -⟩ :=
    (eval_has_listed {} (literal (.string "b"))).1 es "b" rfl hkey
  obtain rfl : [Value.string "a", .string "b"] = keys :=
    Value.sequence.inj (List.cons.inj (Except.ok.inj hkeys)).1
  obtain rfl : answer = true := hlisted.2 ⟨.string "b", by simp, rfl⟩
  obtain ⟨⟨keys, answer, hkeys', hanswer', -, hlisted'⟩, hemits, hequal⟩ :=
    (eval_has_listed {} (literal (.number fraction))).2 items fraction hindex
  obtain rfl : [Value.ofNat 0, .ofNat 1] = keys :=
    Value.sequence.inj (List.cons.inj (Except.ok.inj hkeys')).1
  obtain rfl : answer = true := hlisted'.2 ⟨rfl, .ofNat 1, by simp, rfl⟩
  have hvalue : fraction.value = (1 : Int) := Decimal.value_eq_intCast_iff.2 (by decide)
  exact ⟨⟨hkey, hanswer⟩, ⟨hindex, hanswer', hemits 1 (by decide) (by decide) hvalue⟩,
    rfl, rfl, hequal _ one rfl rfl rfl⟩

/-- A sequence with one element has no index that is a zero with a minus sign, although its one
    index is listed as a number that is equal to it, and emits the element. -/
theorem has_misses_negative_zero :
    let zero : Decimal := ⟨true, 0, 0, by decide, by decide⟩
    let e := call .has [literal (.number zero)]
    let items := [Value.null]
    ofChars "has(-0)".toList = .ok e ∧
      eval {} e (.sequence items) = .ok [.boolean false] ∧
      eval {} (call .keys []) (.sequence items) = .ok [.sequence [.ofNat 0]] ∧
      (Value.ofNat 0).same (.number zero) = true ∧
      eval {} (index 0) (.sequence items) = .ok [.null] := by
  intro zero e items
  have hquery : ofChars "has(-0)".toList = .ok e := by
    have hfault : (Lexemes.ofChars "has(-0)".toList).fault = none := by decide +kernel
    have hword : (Lexemes.ofChars "has(-0)".toList).list.map (·.token) =
        .identifier Builtin.has.name :: .leftParen ::
          ([.minus, .number .zero] ++ [.rightParen]) := by decide +kernel
    have hzero : Derives .operand [.minus, .number .zero] (literal (.number zero)) :=
      .negativeNumber (.positive (.walkStart (.number _)))
    refine (ofLexemes_iff_derivesQuery hfault).2 ?_
    rw [hword]
    exact .plain (Derives.loosen (.callOn rfl (hzero.loosen (by decide)) nofun) (by decide))
  have hhas : eval {} e (.sequence items) = .ok [.boolean false] :=
    (eval_has_sequence (n := zero) rfl).trans rfl
  have hkeys : eval {} (call .keys []) (.sequence items) = .ok [.sequence [.ofNat 0]] := rfl
  have hsame : (Value.ofNat 0).same (.number zero) = true := by decide
  exact ⟨hquery, hhas, hkeys, hsame, rfl⟩

end Expr

end BlockQuery

/-
  The nodes of a tree and the paths to them.

  `paths` lists where the nodes of a value are: the value itself at the empty path, then, child by
  child, the step to the child in front of the paths inside it.  Both this list and the walk that
  `..` makes are put together from `children`, the steps that lead into a value with what they lead
  to (`paths_eq`, `descendants_eq`).  Where keys are distinct, the steps are distinct, and they are
  the steps that `child?` can take without counting from the end (`mem_children_iff`).  From these
  facts about one value an induction over the tree gives what the paths lead to and that none is
  twice in the list, and an induction over paths that none is missing.
-/
import Mathlib.Data.List.Nodup
import BlockQuery.Proofs.ValueKeys
import BlockQuery.Query.Eval

namespace BlockQuery

/-- Whether a step counts from the start, so that no other such step leads to the same child. -/
def Step.Forward : Step → Prop
  | field _ => True
  | index i => 0 ≤ i

instance : DecidablePred Step.Forward
  | .field _ => isTrue trivial
  | .index i => inferInstanceAs (Decidable (0 ≤ i))

namespace Value

/-! ## Children

  A value is taken apart in one step here: its children with the steps to them.  Distinct keys are
  needed to know that a step leads to the child that it stands with, as a second entry with its key
  would be out of reach. -/

/-- The steps that lead into a value, in order, with the children that they lead to.  The steps are
    those that count from the start, one for each child. -/
def children : Value → List (Step × Value)
  | sequence items => items.zipIdx.map fun e => (.index e.2, e.1)
  | mapping es => es.map fun e => (.field e.1, e.2)
  | _ => []

/-- Induction from the children of a value to the value, so that sequences and mappings are one
    case. -/
theorem children_induct {motive : Value → Prop}
    (step : ∀ v, (∀ e ∈ v.children, motive e.2) → motive v) (v : Value) : motive v := by
  induction v using Value.induct with
  | sequence items ih =>
    refine step _ fun e he => ?_
    obtain ⟨⟨c, n⟩, hc, rfl⟩ := List.mem_map.1 he
    exact ih c (List.fst_mem_of_mem_zipIdx hc)
  | mapping es ih =>
    refine step _ fun e he => ?_
    obtain ⟨entry, hentry, rfl⟩ := List.mem_map.1 he
    exact ih entry hentry
  | _ => exact step _ nofun

/-- A walk over a tree visits the value and then the trees of its children. -/
theorem descendants_eq (v : Value) :
    v.descendants = v :: v.children.flatMap fun e => e.2.descendants := by
  cases v with
  | sequence items =>
    have hitems : ∀ n, itemDescendants items =
        (items.zipIdx n).flatMap fun e => e.1.descendants := by
      induction items with
      | nil => exact fun n => rfl
      | cons v items ih =>
        intro n
        rw [itemDescendants, List.zipIdx_cons, List.flatMap_cons, ih (n + 1)]
    rw [descendants, children, List.flatMap_map, hitems 0]
  | mapping es =>
    have hentries : entryDescendants es = es.flatMap fun e => e.2.descendants := by
      induction es with
      | nil => rfl
      | cons e es ih => rw [entryDescendants, List.flatMap_cons, ih]
    rw [descendants, children, List.flatMap_map, hentries]
  | _ => rfl

/-- Where keys are distinct, no two steps into a value are the same. -/
theorem nodup_steps {v : Value} (h : v.DistinctKeys) : (v.children.map (·.1)).Nodup := by
  cases v with
  | sequence items =>
    have hsteps : (sequence items).children.map (·.1) =
        (List.range' 0 items.length).map fun n : Nat => Step.index n := by
      rw [← List.zipIdx_map_snd 0 items, List.map_map, children, List.map_map]
      rfl
    rw [hsteps]
    refine List.Nodup.map ?_ List.nodup_range'
    intro m n hmn
    exact Int.ofNat_inj.1 (Step.index.inj hmn)
  | mapping es =>
    have hsteps : (mapping es).children.map (·.1) = (Entries.keys es).map Step.field := by
      rw [Entries.keys, List.map_map, children, List.map_map]
      rfl
    rw [hsteps]
    exact (distinctKeys_mapping.1 h).1.map fun k l hkl => Step.field.inj hkl
  | _ => exact List.nodup_nil

/-- Where keys are distinct, the children are what the steps that count from the start lead to.  A
    key that stood twice would lead to its first entry from either. -/
theorem mem_children_iff {v c : Value} {step : Step} (h : v.DistinctKeys) :
    (step, c) ∈ v.children ↔ step.Forward ∧ v.child? step = some c := by
  constructor
  · intro hc
    cases v with
    | sequence items =>
      obtain ⟨⟨d, n⟩, hd, heq⟩ := List.mem_map.1 hc
      obtain ⟨rfl, rfl⟩ := Prod.mk.inj heq
      refine ⟨Int.natCast_nonneg n, ?_⟩
      simpa [child?, resolveIndex?] using List.mem_zipIdx_iff_getElem?.1 hd
    | mapping es =>
      obtain ⟨⟨k, d⟩, hd, heq⟩ := List.mem_map.1 hc
      obtain ⟨rfl, rfl⟩ := Prod.mk.inj heq
      exact ⟨trivial, Entries.lookup_eq_some_of_mem (distinctKeys_mapping.1 h).1 hd⟩
    | _ => cases hc
  · rintro ⟨hforward, hc⟩
    rcases child?_cases hc with ⟨es, k, rfl, rfl, hlookup⟩ | ⟨items, i, n, rfl, rfl, hn, hget⟩
    · obtain ⟨front, back, rfl, -⟩ := List.lookup_eq_some_iff.1 hlookup
      exact List.mem_map.2 ⟨(k, c), by simp, rfl⟩
    · have hi : 0 ≤ i := hforward
      obtain rfl : i.toNat = n := by simpa [resolveIndex?, hi] using hn
      refine List.mem_map.2 ⟨(c, i.toNat), List.mem_zipIdx_iff_getElem?.2 hget, ?_⟩
      rw [Int.toNat_of_nonneg hi]

/-- The children of a value with distinct keys have distinct keys themselves. -/
theorem DistinctKeys.of_mem_children {v : Value} (h : v.DistinctKeys) {e : Step × Value}
    (he : e ∈ v.children) : e.2.DistinctKeys :=
  h.child? ((mem_children_iff h).1 he).2

/-! ## Paths

  The list is made by recursion over the tree, with a counter for the elements of a sequence.  In
  terms of children it is a list of lists, one for each child, and so is the walk; the order of both
  is then the same by construction. -/

mutual
/-- The paths to all nodes of a value: the empty one, then those into each child in order. -/
def paths : Value → List Path
  | sequence items => [] :: itemPaths 0 items
  | mapping es => [] :: entryPaths es
  | null => [[]]
  | boolean _ => [[]]
  | number _ => [[]]
  | string _ => [[]]
termination_by structural v => v

/-- The paths into the elements of a sequence, the first of which is at position `n`. -/
def itemPaths (n : Nat) : List Value → List Path
  | [] => []
  | v :: vs => (paths v).map (.index n :: ·) ++ itemPaths (n + 1) vs
termination_by structural items => items

/-- The paths into the values of entries. -/
def entryPaths : List (String × Value) → List Path
  | [] => []
  | (k, v) :: es => (paths v).map (.field k :: ·) ++ entryPaths es
termination_by structural es => es
end

/-- The paths of a value are the empty one and those of its children behind their steps. -/
theorem paths_eq (v : Value) :
    v.paths = [] :: v.children.flatMap fun e => e.2.paths.map (e.1 :: ·) := by
  cases v with
  | sequence items =>
    have hitems : ∀ n, itemPaths n items =
        (items.zipIdx n).flatMap fun e => e.1.paths.map (.index e.2 :: ·) := by
      induction items with
      | nil => exact fun n => rfl
      | cons v items ih =>
        intro n
        rw [itemPaths, List.zipIdx_cons, List.flatMap_cons, ih (n + 1)]
    rw [paths, children, List.flatMap_map, hitems 0]
  | mapping es =>
    have hentries : entryPaths es = es.flatMap fun e => e.2.paths.map (.field e.1 :: ·) := by
      induction es with
      | nil => rfl
      | cons e es ih => rw [entryPaths, List.flatMap_cons, ih]
    rw [paths, children, List.flatMap_map, hentries]
  | _ => rfl

/-- The paths lead to the nodes, in the order of the walk.  By induction on the value: what a path
    finds behind its first step is what it finds in the child. -/
theorem map_lookup?_paths {v : Value} (h : v.DistinctKeys) :
    v.paths.map v.lookup? = v.descendants.map some := by
  induction v using children_induct with
  | step v ih =>
    rw [paths_eq, descendants_eq, List.map_cons, List.map_cons, List.map_flatMap,
      List.map_flatMap, lookup?]
    refine congrArg _ (List.flatMap_congr fun e he => ?_)
    rw [← ih e he (h.of_mem_children he), List.map_map]
    refine List.map_congr_left fun path _ => ?_
    show (v.child? e.1).bind (·.lookup? path) = e.2.lookup? path
    rw [((mem_children_iff h).1 he).2, Option.bind_some]

/-- No path is in the list twice: those into one child differ behind the first step, and those into
    two children differ in it. -/
theorem nodup_paths {v : Value} (h : v.DistinctKeys) : v.paths.Nodup := by
  induction v using children_induct with
  | step v ih =>
    rw [paths_eq, List.nodup_cons, List.nodup_flatMap]
    refine ⟨?_, ?_, ?_⟩
    · simp
    · intro e he
      exact (ih e he (h.of_mem_children he)).map (List.cons_injective)
    · -- paths into different children differ in their first step
      refine (List.pairwise_map.1 (nodup_steps h)).imp ?_
      intro e f hne path hpath hpath'
      obtain ⟨p, -, rfl⟩ := List.mem_map.1 hpath
      obtain ⟨q, -, hq⟩ := List.mem_map.1 hpath'
      exact hne (List.cons.inj hq).1.symm

/-- The list has the paths of steps from the start at which there is a node, and no others.  By
    induction on the path, since what is asked of it is asked step by step. -/
theorem mem_paths_iff {v : Value} (h : v.DistinctKeys) {path : Path} :
    path ∈ v.paths ↔ (∀ step ∈ path, step.Forward) ∧ ∃ w, v.lookup? path = some w := by
  induction path generalizing v with
  | nil =>
    rw [paths_eq]
    simp [lookup?]
  | cons step path ih =>
    rw [paths_eq]
    constructor
    · intro hpath
      have hbelow := (List.mem_cons.1 hpath).resolve_left (List.cons_ne_nil step path)
      obtain ⟨e, he, hinside⟩ := List.mem_flatMap.1 hbelow
      obtain ⟨p, hp, heq⟩ := List.mem_map.1 hinside
      obtain ⟨rfl, rfl⟩ := List.cons.inj heq
      obtain ⟨hforward, hchild⟩ := (mem_children_iff h).1 he
      obtain ⟨hsteps, w, hw⟩ := (ih (h.of_mem_children he)).1 hp
      refine ⟨List.forall_mem_cons.2 ⟨hforward, hsteps⟩, w, ?_⟩
      rw [lookup?, hchild, Option.bind_some, hw]
    · rintro ⟨hsteps, w, hw⟩
      rw [List.forall_mem_cons] at hsteps
      obtain ⟨c, hchild, hw⟩ := Option.bind_eq_some_iff.1 hw
      have he : (step, c) ∈ v.children := (mem_children_iff h).2 ⟨hsteps.1, hchild⟩
      have hp : path ∈ c.paths := (ih (h.child? hchild)).2 ⟨hsteps.2, w, hw⟩
      refine List.mem_cons_of_mem _ (List.mem_flatMap.2 ⟨(step, c), he, ?_⟩)
      exact List.mem_map.2 ⟨path, hp, rfl⟩

end Value

namespace Expr

/-- **The walk over a document visits every node once, in the order of the paths.**  What `..` emits
    is what is found at the paths of the document, one after the other; the paths are distinct, and
    they are all the paths of keys and of indices from the start at which there is a node. -/
theorem eval_recursiveDescent_paths (options : EvalOptions) {v : Value} (h : v.DistinctKeys) :
    (∃ vs, eval options recursiveDescent v = .ok vs ∧ vs.map some = v.paths.map v.lookup?) ∧
      v.paths.Nodup ∧
      ∀ path, path ∈ v.paths ↔
        (∀ step ∈ path, step.Forward) ∧ ∃ w, v.lookup? path = some w :=
  ⟨⟨v.descendants, rfl, (Value.map_lookup?_paths h).symm⟩, Value.nodup_paths h,
    fun _ => Value.mem_paths_iff h⟩

/-- The paths of a nested document.  An index from the end leads to a node too, but is not one of
    them. -/
theorem eval_recursiveDescent_paths_nested :
    let v := Value.mapping
      [("a", .sequence [.mapping [("b", .null)], .boolean true]), ("c", .null)]
    v.DistinctKeys ∧
      v.paths = [[], [.field "a"], [.field "a", .index 0], [.field "a", .index 0, .field "b"],
        [.field "a", .index 1], [.field "c"]] ∧
      (∃ vs, eval {} recursiveDescent v = .ok vs ∧ vs.map some = v.paths.map v.lookup?) ∧
      v.paths.Nodup ∧ [Step.field "a", .index 1] ∈ v.paths ∧
      v.lookup? [.field "a", .index (-1)] = some (.boolean true) ∧
      [Step.field "a", .index (-1)] ∉ v.paths := by
  intro v
  have hkeys : v.DistinctKeys := by decide
  obtain ⟨hwalk, hnodup, hpaths⟩ := eval_recursiveDescent_paths {} hkeys
  refine ⟨hkeys, rfl, hwalk, hnodup, (hpaths _).2 ⟨by decide, _, rfl⟩, rfl, ?_⟩
  intro hback
  exact absurd ((hpaths _).1 hback).1 (by decide)

end Expr

end BlockQuery

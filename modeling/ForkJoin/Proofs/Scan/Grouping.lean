import ForkJoin.Span

/-!
# How a scan brackets

A grouping says which sum of which elements a value is: the elements by their indices, and where
the brackets stand. It is a tree, and `value` computes it with an operator. `sumOf` is the grouping
of the sum that a node of the split tree has, and `upTo` that of the value a scan leaves at an
index. They are functions of the number of elements, the threshold and the index, and of nothing
else.
-/
namespace ForkJoin.Scan

variable {α β γ : Type}

/-- The sum of a list from left to right; an empty list has none. -/
def leftFold (op : β → β → β) : List β → Option β
  | [] => none
  | x :: xs => some (xs.foldl op x)

theorem leftFold_eq_none_iff {op : β → β → β} {xs : List β} : leftFold op xs = none ↔ xs = [] := by
  cases xs with
  | nil => simp [leftFold]
  | cons x xs => simp [leftFold]

theorem exists_leftFold (op : β → β → β) {xs : List β} (h : xs ≠ []) :
    ∃ x, leftFold op xs = some x := by
  cases xs with
  | nil => exact absurd rfl h
  | cons x xs => exact ⟨_, rfl⟩

/-- A sum of some elements of the window. -/
inductive Grouping where
  | elem (i : Nat)
  | join (left right : Grouping)
  deriving DecidableEq

namespace Grouping

/-- What the sum is, if the window has all of its elements. -/
def value (op : α → α → α) (xs : List α) : Grouping → Option α
  | .elem i => xs[i]?
  | .join left right => do return op (← left.value op xs) (← right.value op xs)

theorem value_join {op : α → α → α} {xs : List α} {left right : Grouping} {x y : α}
    (hl : left.value op xs = some x) (hr : right.value op xs = some y) :
    (join left right).value op xs = some (op x y) := by
  simp only [value, hl, hr, Option.pure_def, Option.bind_eq_bind, Option.bind_some]

/-- The indices of the elements, from left to right. -/
def indices : Grouping → List Nat
  | .elem i => [i]
  | .join left right => left.indices ++ right.indices

/-! ## The bracketing of a scan -/

/-- The elements of a span. -/
def elems (s : Span) : List Grouping := (List.range' s.start s.len).map elem

/-- The elements of a span from left to right; there is at least one. -/
def fold (s : Span) : Grouping := (elems ⟨s.start + 1, s.len - 1⟩).foldl join (elem s.start)

/-- The sum of a node of the split tree: of its two halves, unless it is a leaf. -/
def sumOf (threshold : Nat) (ht : 0 < threshold) (s : Span) : Grouping :=
  if threshold < s.len then join (sumOf threshold ht s.lower) (sumOf threshold ht s.upper)
  else fold s
termination_by s.len
decreasing_by all_goals simp only [Span.lower, Span.upper]; omega

/-- The left siblings at the places where the path to index `i` turns right, from `s` downwards. -/
def turns (threshold : Nat) (ht : 0 < threshold) (s : Span) (i : Nat) : List Span :=
  if threshold < s.len then
    if i < s.upper.start then turns threshold ht s.lower i
    else s.lower :: turns threshold ht s.upper i
  else []
termination_by s.len
decreasing_by all_goals simp only [Span.lower, Span.upper]; omega

/-- The leaf that index `i` is in. -/
def leafOf (threshold : Nat) (ht : 0 < threshold) (s : Span) (i : Nat) : Span :=
  if threshold < s.len then
    if i < s.upper.start then leafOf threshold ht s.lower i else leafOf threshold ht s.upper i
  else s
termination_by s.len
decreasing_by all_goals simp only [Span.lower, Span.upper]; omega

/-- What is summed up to index `i` of a span: the left siblings passed, then the elements of the
leaf that are not after it. -/
def parts (threshold : Nat) (ht : 0 < threshold) (s : Span) (i : Nat) : List Grouping :=
  (turns threshold ht s i).map (sumOf threshold ht) ++
    elems ⟨(leafOf threshold ht s i).start, i + 1 - (leafOf threshold ht s i).start⟩

/-- The value that a scan of `len` elements leaves at index `i`. -/
def upTo (threshold : Nat) (ht : 0 < threshold) (len i : Nat) : Option Grouping :=
  leftFold join (parts threshold ht ⟨0, len⟩ i)

section

variable {threshold : Nat} {ht : 0 < threshold} {s : Span} {i : Nat}

theorem sumOf_node (h : threshold < s.len) :
    sumOf threshold ht s = join (sumOf threshold ht s.lower) (sumOf threshold ht s.upper) := by
  rw [sumOf, if_pos h]

theorem sumOf_leaf (h : ¬ threshold < s.len) : sumOf threshold ht s = fold s := by
  rw [sumOf, if_neg h]

theorem parts_lower (h : threshold < s.len) (hi : i < s.upper.start) :
    parts threshold ht s i = parts threshold ht s.lower i := by
  rw [parts, turns, leafOf, if_pos h, if_pos h, if_pos hi, if_pos hi, ← parts]

theorem parts_upper (h : threshold < s.len) (hi : s.upper.start ≤ i) :
    parts threshold ht s i = sumOf threshold ht s.lower :: parts threshold ht s.upper i := by
  rw [parts, turns, leafOf, if_pos h, if_pos h, if_neg (Nat.not_lt.2 hi),
    if_neg (Nat.not_lt.2 hi), List.map_cons, List.cons_append, ← parts]

theorem parts_leaf (h : ¬ threshold < s.len) :
    parts threshold ht s i = elems ⟨s.start, i + 1 - s.start⟩ := by
  rw [parts, turns, leafOf, if_neg h, if_neg h, List.map_nil, List.nil_append]

end

/-! ## Indices -/

theorem indices_foldl (g : Grouping) (gs : List Grouping) :
    (gs.foldl join g).indices = g.indices ++ gs.flatMap indices := by
  induction gs generalizing g with
  | nil => simp
  | cons h gs ih => rw [List.foldl_cons, ih, List.flatMap_cons, indices, List.append_assoc]

theorem flatMap_indices_elems (s : Span) :
    (elems s).flatMap indices = List.range' s.start s.len := by
  simp only [elems, List.flatMap_map, indices, List.flatMap_singleton']

theorem indices_fold {s : Span} (hs : 0 < s.len) :
    (fold s).indices = List.range' s.start s.len := by
  obtain ⟨a, _ | b⟩ := s
  · exact absurd hs (Nat.lt_irrefl 0)
  · rw [fold, indices_foldl, flatMap_indices_elems, List.range'_succ]
    rfl

/-- The sum of a node is a sum of all elements of its span. -/
theorem indices_sumOf (threshold : Nat) (ht : 0 < threshold) {s : Span} (hs : 0 < s.len) :
    (sumOf threshold ht s).indices = List.range' s.start s.len := by
  fun_induction sumOf threshold ht s with
  | case1 s h ihl ihr =>
    rw [indices, ihl (by simp only [Span.lower]; omega), ihr (by simp only [Span.upper]; omega)]
    simp only [Span.lower, Span.upper, List.range'_append_1]
    rw [Nat.add_sub_cancel' (Nat.div_le_self _ _)]
  | case2 s h => exact indices_fold hs

theorem flatMap_indices_parts (threshold : Nat) (ht : 0 < threshold) {s : Span} {i : Nat}
    (hs : s.start ≤ i) :
    (parts threshold ht s i).flatMap indices = List.range' s.start (i + 1 - s.start) := by
  induction hlen : s.len using Nat.strongRecOn generalizing s with
  | ind len ih =>
    by_cases h : threshold < s.len
    · by_cases hi : i < s.upper.start
      · rw [parts_lower h hi]
        exact ih _ (by simp only [Span.lower]; omega) (s := s.lower) hs rfl
      · have hi := Nat.le_of_not_lt hi
        rw [parts_upper h hi, List.flatMap_cons,
          indices_sumOf threshold ht (by simp only [Span.lower]; omega),
          ih _ (by simp only [Span.upper]; omega) (s := s.upper) hi rfl]
        simp only [Span.lower, Span.upper, List.range'_append_1] at hi ⊢
        congr 1
        omega
    · rw [parts_leaf h, flatMap_indices_elems]

/-- **The value at an index is a sum of all elements up to it, each once and in their order.** -/
theorem indices_upTo (threshold : Nat) (ht : 0 < threshold) (len i : Nat) :
    ∃ g, upTo threshold ht len i = some g ∧ g.indices = List.range (i + 1) := by
  have hparts := flatMap_indices_parts threshold ht (s := ⟨0, len⟩) (Nat.zero_le i)
  rw [Nat.sub_zero] at hparts
  rw [upTo]
  cases h : parts threshold ht ⟨0, len⟩ i with
  | nil => simp [h, List.range'_succ] at hparts
  | cons g gs =>
    refine ⟨_, rfl, ?_⟩
    rw [indices_foldl, ← List.flatMap_cons, ← h, hparts, List.range_eq_range']

/-! ## Values -/

theorem value_foldl {op : α → α → α} {xs : List α} {g : Grouping} {gs : List Grouping} {x : α}
    {ys : List α} (hg : g.value op xs = some x) (hgs : gs.map (value op xs) = ys.map some) :
    (gs.foldl join g).value op xs = some (ys.foldl op x) := by
  induction gs generalizing g x ys with
  | nil =>
    obtain rfl : ys = [] := by simpa using hgs.symm
    exact hg
  | cons h gs ih =>
    cases ys with
    | nil => simp at hgs
    | cons y ys =>
      rw [List.map_cons, List.map_cons, List.cons.injEq] at hgs
      rw [List.foldl_cons, List.foldl_cons]
      exact ih (value_join hg hgs.1) hgs.2

/-- The value of a sum of groupings is the sum of their values. -/
theorem value_leftFold {op : α → α → α} {xs : List α} {gs : List Grouping} {ys : List α}
    (h : gs.map (value op xs) = ys.map some) :
    (leftFold join gs).bind (value op xs) = leftFold op ys := by
  cases gs with
  | nil =>
    obtain rfl : ys = [] := by simpa using h.symm
    rfl
  | cons g gs =>
    cases ys with
    | nil => simp at h
    | cons y ys =>
      rw [List.map_cons, List.map_cons, List.cons.injEq] at h
      exact value_foldl h.1 h.2

/-- The elements of a window on a span. -/
def segmentOf (xs : List α) (s : Span) : List α := (xs.drop s.start).take s.len

theorem map_value_elems (op : α → α → α) (xs : List α) {s : Span} (hs : s.stop ≤ xs.length) :
    (elems s).map (value op xs) = (segmentOf xs s).map some := by
  refine List.ext_getElem? fun i => ?_
  simp only [elems, segmentOf, List.map_map, List.getElem?_map, List.getElem?_take,
    Span.stop] at hs ⊢
  by_cases hi : i < s.len
  · rw [List.getElem?_range' hi, if_pos hi, List.getElem?_drop, Option.map_some,
      Function.comp_apply, value, Nat.one_mul, List.getElem?_eq_getElem (by omega)]
    rfl
  · rw [if_neg hi, List.getElem?_eq_none (by rw [List.length_range']; omega)]
    rfl

theorem value_mem {op : α → α → α} {P : α → Prop} (hP : ∀ a b, P a → P b → P (op a b))
    {xs : List α} (hxs : ∀ x ∈ xs, P x) {g : Grouping} {y : α} (h : g.value op xs = some y) :
    P y := by
  induction g generalizing y with
  | elem i => exact hxs y (List.mem_of_getElem? h)
  | join left right ihl ihr =>
    simp only [value, Option.bind_eq_bind, Option.bind_eq_some_iff, Option.pure_def,
      Option.some.injEq] at h
    obtain ⟨a, ha, b, hb, rfl⟩ := h
    exact hP a b (ihl ha) (ihr hb)

end Grouping

end ForkJoin.Scan

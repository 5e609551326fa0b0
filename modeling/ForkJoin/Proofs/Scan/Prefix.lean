import ForkJoin.Proofs.Scan.ClosedForm

/-!
# Scans with an associative operator

Under an operator that is associative on the elements and on what it makes of them, the brackets
do not matter: every grouping is worth the left fold of its elements, in their order. So a scan
leaves the left fold of the elements up to each index, for any tuning.
-/
namespace ForkJoin.Scan

open Grouping

variable {α ε : Type} {op : α → α → α} {P : α → Prop}

/-! ## Left folds -/

theorem foldl_assoc_on (hP : ∀ a b, P a → P b → P (op a b))
    (hassoc : ∀ a b c, P a → P b → P c → op (op a b) c = op a (op b c)) {a b : α} {xs : List α}
    (ha : P a) (hb : P b) (hxs : ∀ x ∈ xs, P x) :
    xs.foldl op (op a b) = op a (xs.foldl op b) := by
  induction xs generalizing b with
  | nil => rfl
  | cons x xs ih =>
    have hx := hxs x List.mem_cons_self
    rw [List.foldl_cons, List.foldl_cons, hassoc a b x ha hb hx]
    exact ih (hP b x hb hx) fun y hy => hxs y (List.mem_cons_of_mem x hy)

theorem foldl_on (hP : ∀ a b, P a → P b → P (op a b)) {a : α} {xs : List α} (ha : P a)
    (hxs : ∀ x ∈ xs, P x) : P (xs.foldl op a) := by
  induction xs generalizing a with
  | nil => exact ha
  | cons x xs ih =>
    exact ih (hP a x ha (hxs x List.mem_cons_self)) fun y hy => hxs y (List.mem_cons_of_mem x hy)

theorem leftFold_append (hP : ∀ a b, P a → P b → P (op a b))
    (hassoc : ∀ a b c, P a → P b → P c → op (op a b) c = op a (op b c)) {xs ys : List α} {a b : α}
    (hxs : ∀ x ∈ xs, P x) (hys : ∀ y ∈ ys, P y) (ha : leftFold op xs = some a)
    (hb : leftFold op ys = some b) : leftFold op (xs ++ ys) = some (op a b) := by
  cases xs with
  | nil => cases ha
  | cons x xs =>
    cases ys with
    | nil => cases hb
    | cons y ys =>
      cases ha
      cases hb
      have hx := foldl_on hP (hxs x List.mem_cons_self) fun z hz =>
        hxs z (List.mem_cons_of_mem x hz)
      rw [List.cons_append, leftFold, List.foldl_append, List.foldl_cons,
        foldl_assoc_on hP hassoc hx (hys y List.mem_cons_self) fun z hz =>
          hys z (List.mem_cons_of_mem y hz)]

/-- Where the operator is associative, the brackets do not matter. -/
theorem leftFold_indices (hP : ∀ a b, P a → P b → P (op a b))
    (hassoc : ∀ a b c, P a → P b → P c → op (op a b) c = op a (op b c)) {xs : List α}
    (hxs : ∀ x ∈ xs, P x) {g : Grouping} {y : α} (h : g.value op xs = some y) :
    leftFold op (g.indices.filterMap (xs[·]?)) = some y := by
  have hread : ∀ js : List Nat, ∀ x ∈ js.filterMap (xs[·]?), P x := by
    intro js x hx
    obtain ⟨i, _, hi⟩ := List.mem_filterMap.1 hx
    exact hxs x (List.mem_of_getElem? hi)
  induction g generalizing y with
  | elem i =>
    rw [value] at h
    rw [indices, List.filterMap_cons, h]
    rfl
  | join left right ihl ihr =>
    simp only [value, Option.bind_eq_bind, Option.bind_eq_some_iff, Option.pure_def,
      Option.some.injEq] at h
    obtain ⟨a, ha, b, hb, rfl⟩ := h
    rw [indices, List.filterMap_append]
    exact leftFold_append hP hassoc (hread _) (hread _) (ihl ha) (ihr hb)

theorem filterMap_range (xs : List α) (n : Nat) :
    (List.range n).filterMap (xs[·]?) = xs.take n := by
  induction n with
  | zero => rfl
  | succ n ih =>
    rw [List.range_succ, List.filterMap_append, ih, List.take_add_one]
    cases h : xs[n]? <;> simp [h]

/-! ## Prefixes -/

/-- Every element of `ys` is the left fold of the elements of `xs` up to it. -/
structure Prefixes (op : α → α → α) (xs ys : List α) : Prop where
  length : ys.length = xs.length
  value : ∀ i < xs.length, ys[i]? = leftFold op (xs.take (i + 1))

theorem Bracketed.prefixes {threshold : Nat} {ht : 0 < threshold} {xs ys : List α}
    (hP : ∀ a b, P a → P b → P (op a b))
    (hassoc : ∀ a b c, P a → P b → P c → op (op a b) c = op a (op b c)) (hxs : ∀ x ∈ xs, P x)
    (h : Bracketed op threshold ht xs ys) : Prefixes op xs ys := by
  refine ⟨h.length, fun i hi => ?_⟩
  obtain ⟨g, y, hg, hy, hys⟩ := h.value i hi
  obtain ⟨g', hg', hindices⟩ := indices_upTo threshold ht xs.length i
  obtain rfl := Option.some.inj (hg.symm.trans hg')
  rw [hys, ← leftFold_indices hP hassoc hxs hy, hindices, filterMap_range]

theorem Prefixes.getLast? {xs ys : List α} (h : Prefixes op xs ys) :
    ys.getLast? = leftFold op xs := by
  rw [List.getLast?_eq_getElem?, h.length]
  cases xs with
  | nil => rw [List.length_nil, List.eq_nil_of_length_eq_zero h.length]; rfl
  | cons x xs => rw [h.value _ (by simp), List.length_cons, Nat.add_sub_cancel,
      List.take_of_length_le (by simp)]

/-- There is one list only that holds the prefixes. -/
theorem Prefixes.unique {xs ys zs : List α} (h : Prefixes op xs ys) (h' : Prefixes op xs zs) :
    ys = zs := by
  refine List.ext_getElem? fun i => ?_
  by_cases hi : i < xs.length
  · rw [h.value i hi, h'.value i hi]
  · rw [List.getElem?_eq_none (by rw [h.length]; omega),
      List.getElem?_eq_none (by rw [h'.length]; omega)]

/-- **A scan with an associative operator leaves the prefix sums**, and tells the sum of all. -/
theorem scan_prefixes (hP : ∀ a b, P a → P b → P (op a b))
    (hassoc : ∀ a b c, P a → P b → P c → op (op a b) c = op a (op b c))
    {f : α → α → Except ε α} (hf : ∀ a b, P a → P b → f a b = .ok (op a b))
    (xs : Array α) (w : Window) (hstart : w.start ≤ w.stop) (hstop : w.stop ≤ xs.size)
    (hxs : ∀ x ∈ (xs.extract w.start w.stop).toList, P x) :
    ∃ ys values total,
      values.toList = xs.toList.take w.start ++ ys ++ xs.toList.drop w.stop ∧
      Prefixes op (xs.extract w.start w.stop).toList ys ∧
      total = leftFold op (xs.extract w.start w.stop).toList ∧
      total = ys.getLast? ∧ (total = none ↔ w.start = w.stop) ∧
      (∀ tuning, ∃ calls, scanWith tuning f xs w = .ok ⟨⟨total, values⟩, calls⟩) ∧
      (∀ threads, ∃ calls, scanWindow threads f xs w = .ok ⟨⟨total, values⟩, calls⟩) ∧
      (w = Window.all xs.size →
        ∀ threads, ∃ calls, scan threads f xs = .ok ⟨⟨total, values⟩, calls⟩) := by
  have hw := Window.check_eq_ok_iff.2 ⟨hstart, hstop⟩
  have hrun : ∀ tuning, ∃ calls ys values,
      scanWith tuning f xs w = .ok ⟨⟨ys.getLast?, values⟩, calls⟩ ∧
      values.toList = xs.toList.take w.start ++ ys ++ xs.toList.drop w.stop ∧
      Prefixes op (xs.extract w.start w.stop).toList ys := by
    intro tuning
    obtain ⟨calls, ys, values, hrun, hvalues, hys⟩ := exists_scanWith hP hf tuning hw hxs
    exact ⟨calls, ys, values, hrun, hvalues, hys.prefixes hP hassoc hxs⟩
  -- any tuning has the values of this one
  obtain ⟨_, ys, values, _, hvalues, hys⟩ := hrun (Tuning.ofThreads { val := 1 })
  have hany : ∀ tuning, ∃ calls, scanWith tuning f xs w = .ok ⟨⟨ys.getLast?, values⟩, calls⟩ := by
    intro tuning
    obtain ⟨calls, ys', values', hrun', hvalues', hys'⟩ := hrun tuning
    obtain rfl := hys.unique hys'
    obtain rfl := Array.toList_inj.1 (hvalues.trans hvalues'.symm)
    exact ⟨calls, hrun'⟩
  refine ⟨ys, values, _, hvalues, hys, hys.getLast?, rfl, ?_, hany, fun threads => hany _, ?_⟩
  · rw [hys.getLast?, leftFold_eq_none_iff, Array.toList_eq_nil_iff, ← Array.size_eq_zero_iff,
      Array.size_extract]
    omega
  · rintro rfl threads
    exact hany _

/-- Strings are joined in their order, whatever the tuning. -/
theorem scan_prefixes_strings : ∃ values : Array (List Char),
    values.toList = [['a'], ['b'], ['b', 'c'], ['b', 'c', 'd'], ['e']] ∧
      ∀ tuning, ∃ calls, scanWith tuning (fun a b => (.ok (a ++ b) : Except String (List Char)))
        #[['a'], ['b'], ['c'], ['d'], ['e']] ⟨1, 4⟩ =
          .ok ⟨⟨some ['b', 'c', 'd'], values⟩, calls⟩ := by
  obtain ⟨ys, values, total, hvalues, hys, rfl, _, _, hrun, _⟩ :=
    scan_prefixes (P := (· ≠ [])) (ε := String)
      (fun a b ha _ => List.append_ne_nil_of_left_ne_nil ha b)
      (fun a b c _ _ _ => List.append_assoc a b c) (fun _ _ _ _ => rfl)
      #[['a'], ['b'], ['c'], ['d'], ['e']] ⟨1, 4⟩ (by decide) (by decide) (by decide)
  obtain rfl : ys = [['b'], ['b', 'c'], ['b', 'c', 'd']] :=
    hys.unique ⟨rfl, by decide⟩
  exact ⟨values, hvalues, hrun⟩

end ForkJoin.Scan

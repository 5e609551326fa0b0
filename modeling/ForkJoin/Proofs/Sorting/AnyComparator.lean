import ForkJoin.Proofs.Sorting.DepthFirst

/-!
# Sorts with any comparator

A comparator need not be consistent for a sort to come to its end. Where it is not, nothing is said
about the order, but every element of the window is still there once.
-/
namespace ForkJoin.Sorting

open Calling

variable {α : Type}

/-- The elements of a list that were moved are those at the positions that were moved. -/
theorem exists_perm_map {β γ : Type} {f : β → γ} {xs : List γ} {ps : List β}
    (h : xs.Perm (ps.map f)) : ∃ qs : List β, qs.Perm ps ∧ xs = qs.map f := by
  generalize hys : ps.map f = ys at h
  induction h generalizing ps with
  | nil => exact ⟨[], List.map_eq_nil_iff.1 hys ▸ .refl _, rfl⟩
  | cons x _ ih =>
    obtain ⟨p, ps, rfl, rfl, hps⟩ := List.map_eq_cons_iff.1 hys
    obtain ⟨qs, hqs, rfl⟩ := ih hps
    exact ⟨p :: qs, hqs.cons p, rfl⟩
  | swap x y l =>
    obtain ⟨p, ps, rfl, rfl, hps⟩ := List.map_eq_cons_iff.1 hys
    obtain ⟨q, ps, rfl, rfl, rfl⟩ := List.map_eq_cons_iff.1 hps
    exact ⟨q :: p :: ps, .swap p q ps, rfl⟩
  | trans _ _ ih₁ ih₂ =>
    obtain ⟨qs, hqs, rfl⟩ := ih₂ hys
    obtain ⟨rs, hrs, rfl⟩ := ih₁ rfl
    exact ⟨rs, hrs.trans hqs, rfl⟩

theorem map_some_extract (xs : Array α) {start stop : Nat} (h : stop ≤ xs.size) :
    (xs.extract start stop).toList.map some =
      (List.range' start (stop - start)).map (xs[·]?) := by
  refine List.ext_getElem? fun i => ?_
  rw [List.getElem?_map, List.getElem?_map, Array.getElem?_toList, Array.getElem?_extract,
    Nat.min_eq_left h]
  by_cases hi : i < stop - start
  · rw [if_pos hi, List.getElem?_range' hi, Nat.one_mul, Option.map_some,
      Array.getElem?_eq_getElem (by omega)]
    rfl
  · rw [if_neg hi, List.getElem?_eq_none (by rw [List.length_range']; omega)]
    rfl

/-- What a window is arranged to comes from positions in it, each of them once. -/
theorem exists_positions {xs : Array α} {w : Window} (hstop : w.stop ≤ xs.size) {ys : List α}
    (h : ys.Perm (xs.extract w.start w.stop).toList) : ∃ ps : List Nat,
      ps.Perm (List.range' w.start (w.stop - w.start)) ∧ ys.map some = ps.map (xs[·]?) := by
  have hmoved := h.map some
  rw [map_some_extract xs hstop] at hmoved
  exact exists_perm_map hmoved

theorem exists_sortWith_perm {ε : Type} (cmp : α → α → Ordering) (tuning : Tuning) {xs : Array α}
    {w : Window} (hw : w.check xs.size = .ok ()) (hsize : xs.size < 2 ^ 64) :
    ∃ calls ys values,
      sortWith tuning (fun a b => (.ok (cmp a b) : Except ε Ordering)) xs w = .ok ⟨values, calls⟩ ∧
      values.toList = xs.toList.take w.start ++ ys ++ xs.toList.drop w.stop ∧
      ys.Perm (xs.extract w.start w.stop).toList :=
  exists_sortWith (K := .any) (fun a b _ => ⟨_, rfl, trivial⟩) hw
    (ofWindow_ensures (size_extract_lt hsize w.start w.stop) (sortShort_perm _)
      (fun g hg => sortQuarters_perm hg _) tuning)
    fun ys hys => by rw [hys.length_eq, Array.length_toList]

/-- **Whatever the comparator, a sort comes to its end and only moves the elements of the window**:
`ps` are the positions from which they come, each of them once. As everywhere, the length of the
array is a number of 64 bits. -/
theorem sort_moves {ε : Type} (cmp : α → α → Ordering) (tuning : Tuning) (xs : Array α) (w : Window)
    (hstart : w.start ≤ w.stop) (hstop : w.stop ≤ xs.size) (hsize : xs.size < 2 ^ 64) :
    ∃ calls values, ∃ (ys : List α) (ps : List Nat),
      sortWith tuning (fun a b => (.ok (cmp a b) : Except ε Ordering)) xs w = .ok ⟨values, calls⟩ ∧
      values.toList = xs.toList.take w.start ++ ys ++ xs.toList.drop w.stop ∧
      ps.Perm (List.range' w.start (w.stop - w.start)) ∧ ys.map some = ps.map (xs[·]?) := by
  obtain ⟨calls, ys, values, hrun, hvalues, hys⟩ := exists_sortWith_perm (ε := ε) cmp tuning
    (Window.check_eq_ok_iff.2 ⟨hstart, hstop⟩) hsize
  obtain ⟨ps, hps, hfrom⟩ := exists_positions hstop hys
  exact ⟨calls, values, ys, ps, hrun, hvalues, hps, hfrom⟩

/-- A comparator that finds every element greater than every other still moves them only. -/
theorem sort_moves_always_greater : ∃ calls values, ∃ (ys : List Nat) (ps : List Nat),
    sortWith ⟨{ val := 2 }, { val := 1 }, { val := 1 }⟩
      (fun _ _ => (.ok .gt : Except String Ordering)) #[9, 3, 1, 2, 3, 8] ⟨1, 5⟩ =
        .ok ⟨values, calls⟩ ∧
    values.toList = [9] ++ ys ++ [8] ∧ ps.Perm [1, 2, 3, 4] ∧
    ys.map some = ps.map (#[9, 3, 1, 2, 3, 8][·]?) :=
  sort_moves (fun _ _ => .gt) ⟨{ val := 2 }, { val := 1 }, { val := 1 }⟩ #[9, 3, 1, 2, 3, 8] ⟨1, 5⟩
    (by decide) (by decide) (by decide)

end ForkJoin.Sorting

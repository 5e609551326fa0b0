import ForkJoin.Proofs.Sorting.DepthFirst
import ForkJoin.Proofs.Sorting.StableCuts

/-!
# A sort is the stable sort

Merging with cuts, sorting by halves and sorting by quarters all leave the stable arrangement, so
any tuning has the same result.
-/
namespace ForkJoin.Sorting

open Calling

variable {α : Type} {cmp : α → α → Ordering} {P : α → Prop} {xs ys left right : List α}

/-! ## Merging with cuts -/

section

variable (hcmp : TotalPreorderOn cmp P) (hleft : OrderedRun cmp P left)
  (hright : OrderedRun cmp P right) {c : Cut left.length right.length}
  (hc : c.Separates cmp left right)

include hcmp hleft hright hc in
/-- Before and behind a cut, equal elements stand as in the two runs. -/
theorem Rearranged.cut : Rearranged cmp P (left ++ right)
    ((left.take c.left ++ right.take c.right) ++ (left.drop c.left ++ right.drop c.right)) := by
  have hswap := Rearranged.swap hcmp (fun x hx => hleft.each x (List.mem_of_mem_drop hx))
    (fun y hy => hright.each y (List.mem_of_mem_take hy)) hc.behind
  have hall := ((refl (left.take c.left)).append hswap).append (refl (right.drop c.right))
  have hwhole : left.take c.left ++ (left.drop c.left ++ right.take c.right) ++
      right.drop c.right = left ++ right := by
    rw [← List.append_assoc, List.take_append_drop, List.append_assoc, List.take_append_drop]
  rw [hwhole] at hall
  simpa only [List.append_assoc] using hall

include hleft hright hc in
/-- What is merged before the cut is no greater than what is merged behind it. -/
theorem Cut.Separates.le {a b : α} (ha : a ∈ left.take c.left ++ right.take c.right)
    (hb : b ∈ left.drop c.left ++ right.drop c.right) : cmp a b ≠ .gt := by
  have hl := hleft.sorted
  have hr := hright.sorted
  rw [← List.take_append_drop c.left left, List.pairwise_append] at hl
  rw [← List.take_append_drop c.right right, List.pairwise_append] at hr
  rcases List.mem_append.1 ha with ha | ha <;> rcases List.mem_append.1 hb with hb | hb
  · exact hl.2.2 a ha b hb
  · exact hc.before a ha b hb
  · rw [hc.behind b hb a ha]
    exact Ordering.noConfusion
  · exact hr.2.2 a ha b hb

include hcmp hleft hright hc in
/-- What is before the cut and what is behind it can be merged on their own. -/
theorem Cut.Separates.parts :
    c.Parts (fun left right => OrderedRun cmp P left ∧ OrderedRun cmp P right)
      (fun left right => SortedFrom cmp P (left ++ right)) left right where
  before := ⟨hleft.sublist (List.take_sublist _ _), hright.sublist (List.take_sublist _ _)⟩
  behind := ⟨hleft.sublist (List.drop_sublist _ _), hright.sublist (List.drop_sublist _ _)⟩
  join head tail hhead htail := by
    refine ⟨(Rearranged.cut hcmp hleft hright hc).trans (hhead.moved.append htail.moved), ?_⟩
    refine List.pairwise_append.2 ⟨hhead.sorted, htail.sorted, fun a ha b hb => ?_⟩
    exact hc.le hleft hright (hhead.moved.perm.mem_iff.1 ha) (htail.moved.perm.mem_iff.1 hb)

end

theorem splitMerge_on (hcmp : TotalPreorderOn cmp P) {g : Nat} (hg : 0 < g)
    (hleft : OrderedRun cmp P left) (hright : OrderedRun cmp P right) :
    (splitMerge g left right).Ensures (.on P cmp) (SortedFrom cmp P (left ++ right)) := by
  refine splitMerge_ensures (fun left right => OrderedRun cmp P left ∧ OrderedRun cmp P right)
    (fun left right => SortedFrom cmp P (left ++ right)) hg ?_ ?_ ⟨hleft, hright⟩
  · rintro left right ⟨hleft, hright⟩
    exact merge_on hcmp hleft hright
  · rintro left right ⟨hleft, hright⟩
    exact (cut?_separates hcmp g hleft hright).mono fun _ hsep c hc =>
      (hsep c hc).parts hcmp hleft hright

/-! ## Sorting -/

/-- Two sorted parts that are merged are the whole sorted. -/
theorem SortedFrom.merged {xs' ys' zs : List α} (h : SortedFrom cmp P xs ys)
    (h' : SortedFrom cmp P xs' ys') (hzs : SortedFrom cmp P (ys ++ ys') zs) :
    SortedFrom cmp P (xs ++ xs') zs :=
  ⟨(h.moved.append h'.moved).trans hzs.moved, hzs.sorted⟩

/-- If the last of one sorted list is no greater than the first of another, both are sorted as they
stand. -/
theorem pairwise_append_of_ends (hcmp : TotalPreorderOn cmp P) (hleft : OrderedRun cmp P left)
    (hright : OrderedRun cmp P right) (hl : left ≠ []) (hr : right ≠ [])
    (h : cmp (left.getLast hl) (right.head hr) ≠ .gt) :
    (left ++ right).Pairwise fun a b => cmp a b ≠ .gt := by
  refine List.pairwise_append.2 ⟨hleft.sorted, hright.sorted, fun x hx y hy => ?_⟩
  have hlast := hleft.each _ (List.getLast_mem hl)
  have hhead := hright.each _ (List.head_mem hr)
  have hx_le : cmp x (left.getLast hl) ≠ .gt := by
    obtain ⟨i, hi⟩ := List.mem_iff_getElem?.1 hx
    have hi_lt := (List.getElem?_eq_some_iff.1 hi).1
    refine hleft.le_of_index hcmp (by omega : i ≤ left.length - 1) hi ?_
    rw [← List.getLast?_eq_getElem?, List.getLast?_eq_some_getLast hl]
  have hy_ge : cmp (right.head hr) y ≠ .gt := by
    obtain ⟨j, hj⟩ := List.mem_iff_getElem?.1 hy
    refine hright.le_of_index hcmp (Nat.zero_le j) ?_ hj
    rw [← List.head?_eq_getElem?, List.head?_eq_some_head hr]
  have hx := hleft.each x hx
  exact hcmp.trans x _ y hx hhead (hright.each y hy) (hcmp.trans x _ _ hx hlast hhead hx_le h) hy_ge

theorem sortShort_on (hcmp : TotalPreorderOn cmp P) (hxs : ∀ x ∈ xs, P x) :
    (sortShort xs).Ensures (.on P cmp) (SortedFrom cmp P xs) := by
  refine sortShort_ensures (fun xs => ∀ x ∈ xs, P x) (SortedFrom cmp P)
    (fun h hsub x hx => h x (hsub.subset hx)) (fun _ _ h => h.moved.perm.length_eq)
    (fun _ => insertionSort_on hcmp) ?_ hxs
  intro xs xs' left right hall hleft hright hl hr
  obtain ⟨hxs, hxs'⟩ := List.forall_mem_append.1 hall
  have hlrun := hleft.orderedRun hxs
  have hrrun := hright.orderedRun hxs'
  refine ⟨⟨hlrun.each _ (List.getLast_mem hl), hrrun.each _ (List.head_mem hr)⟩, ?_⟩
  rintro _ rfl
  by_cases hgt : cmp (left.getLast hl) (right.head hr) = .gt
  · rw [if_pos hgt]
    exact (merge_on hcmp hlrun hrrun).mono fun _ => hleft.merged hright
  · rw [if_neg hgt]
    exact hleft.merged hright ⟨.refl _, pairwise_append_of_ends hcmp hlrun hrrun hl hr hgt⟩

theorem sortQuarters_on (hcmp : TotalPreorderOn cmp P) {g : Nat} (hg : 0 < g)
    (hxs : ∀ x ∈ xs, P x) :
    (sortQuarters g hg xs).Ensures (.on P cmp) (SortedFrom cmp P xs) := by
  refine sortQuarters_ensures (fun xs => ∀ x ∈ xs, P x) (SortedFrom cmp P)
    (fun h hsub x hx => h x (hsub.subset hx)) hg (fun _ => sortShort_on hcmp) ?_ hxs
  intro xs xs' ys ys' hall h h'
  obtain ⟨hxs, hxs'⟩ := List.forall_mem_append.1 hall
  exact (splitMerge_on hcmp hg (h.orderedRun hxs) (h'.orderedRun hxs')).mono fun _ => h.merged h'

/-! ## Windows -/

/-- Any tuning sorts the elements of a window stably. -/
theorem exists_sortWith_stable {ε : Type} (tuning : Tuning) {xs : Array α} {w : Window}
    (hw : w.check xs.size = .ok ()) (hsize : xs.size < 2 ^ 64) (hcmp : TotalPreorderOn cmp P)
    (hxs : ∀ x ∈ (xs.extract w.start w.stop).toList, P x) :
    ∃ calls ys values,
      sortWith tuning (fun a b => (.ok (cmp a b) : Except ε Ordering)) xs w = .ok ⟨values, calls⟩ ∧
      values.toList = xs.toList.take w.start ++ ys ++ xs.toList.drop w.stop ∧
      StableArrangement cmp (xs.extract w.start w.stop).toList ys := by
  have hlt := size_extract_lt hsize w.start w.stop
  obtain ⟨calls, ys, values, hrun, hvalues, hys⟩ := exists_sortWith (ε := ε) (K := .on P cmp)
    (fun a b _ => ⟨_, rfl, rfl⟩) hw
    (ofWindow_ensures hlt (sortShort_on hcmp hxs) (fun g hg => sortQuarters_on hcmp hg hxs) tuning)
    fun ys hys => by rw [hys.moved.perm.length_eq, Array.length_toList]
  exact ⟨calls, ys, values, hrun, hvalues, hys.moved.stableArrangement hxs hys.sorted⟩

/-- **A sort leaves the stable arrangement of the window**, whatever the tuning. The length of an
array is a number of 64 bits: its digits bound how often a run is cut, and with that the counter of
a latch. -/
theorem sort_stable {ε : Type} (cmp : α → α → Ordering) (xs : Array α) (w : Window)
    (hstart : w.start ≤ w.stop) (hstop : w.stop ≤ xs.size) (hsize : xs.size < 2 ^ 64)
    (hcmp : TotalPreorderOn cmp (· ∈ (xs.extract w.start w.stop).toList)) :
    ∃ ys values, values.toList = xs.toList.take w.start ++ ys ++ xs.toList.drop w.stop ∧
      StableArrangement cmp (xs.extract w.start w.stop).toList ys ∧
      (∀ zs, StableArrangement cmp (xs.extract w.start w.stop).toList zs → zs = ys) ∧
      (∀ tuning, ∃ calls, sortWith tuning (fun a b => (.ok (cmp a b) : Except ε Ordering)) xs w =
        .ok ⟨values, calls⟩) ∧
      (∀ threads, ∃ calls,
        sortWindowBy threads (fun a b => (.ok (cmp a b) : Except ε Ordering)) xs w =
          .ok ⟨values, calls⟩) ∧
      (w = Window.all xs.size →
        (∀ threads, ∃ calls, sortBy threads (fun a b => (.ok (cmp a b) : Except ε Ordering)) xs =
          .ok ⟨values, calls⟩) ∧
        (∀ [Ord α], cmp = compare → ∀ threads, ∃ calls,
          sort (ε := ε) threads xs = .ok ⟨values, calls⟩) ∧
        ∀ {κ : Type} [Ord κ] (key : α → κ), (cmp = fun a b => compare (key a) (key b)) →
          ∀ threads, ∃ calls, sortByKey (ε := ε) threads key xs = .ok ⟨values, calls⟩) := by
  have hw := Window.check_eq_ok_iff.2 ⟨hstart, hstop⟩
  -- any tuning has the values of this one
  obtain ⟨_, ys, values, _, hvalues, hys⟩ :=
    exists_sortWith_stable (ε := ε) (Tuning.ofThreads { val := 1 }) hw hsize hcmp fun _ h => h
  have hany : ∀ tuning, ∃ calls,
      sortWith tuning (fun a b => (.ok (cmp a b) : Except ε Ordering)) xs w =
        .ok ⟨values, calls⟩ := by
    intro tuning
    obtain ⟨calls, zs, values', hrun, hvalues', hzs⟩ :=
      exists_sortWith_stable (ε := ε) tuning hw hsize hcmp fun _ h => h
    obtain rfl := hys.unique hcmp hzs
    obtain rfl := Array.toList_inj.1 (hvalues.trans hvalues'.symm)
    exact ⟨calls, hrun⟩
  refine ⟨ys, values, hvalues, hys, fun zs hzs => hzs.unique hcmp hys, hany, fun threads => hany _,
    ?_⟩
  rintro rfl
  refine ⟨fun threads => hany _, ?_, ?_⟩
  · intro _ hord threads
    subst hord
    exact hany _
  · intro κ _ key hkey threads
    subst hkey
    exact hany _

/-- Pairs are sorted by their first part, and by nothing else. -/
theorem sort_stable_pairs : ∃ values : Array (Nat × Nat),
    values.toList = [(9, 0), (1, 2), (1, 4), (2, 3), (3, 1), (0, 5)] ∧
      ∀ tuning, ∃ calls, sortWith tuning
        (fun a b => (.ok (compare a.1 b.1) : Except String Ordering))
        #[(9, 0), (3, 1), (1, 2), (2, 3), (1, 4), (0, 5)] ⟨1, 5⟩ = .ok ⟨values, calls⟩ := by
  obtain ⟨ys, values, hvalues, hys, hunique, hrun, _⟩ := sort_stable (ε := String)
    (fun a b : Nat × Nat => compare a.1 b.1)
    #[(9, 0), (3, 1), (1, 2), (2, 3), (1, 4), (0, 5)] ⟨1, 5⟩ (by decide) (by decide) (by decide) {
      swap := by simp [Nat.compare_eq_lt, Nat.compare_eq_gt]
      trans := fun a b c _ _ _ hab hbc => by
        simp only [ne_eq, Nat.compare_eq_gt, Nat.not_lt] at *
        exact Nat.le_trans hab hbc
      total := fun a b _ _ => by
        simp only [ne_eq, Nat.compare_eq_gt, Nat.not_lt]
        exact Nat.le_total _ _ }
  obtain rfl : [(1, 2), (1, 4), (2, 3), (3, 1)] = ys :=
    hunique _ ⟨by decide, by decide, by decide⟩
  exact ⟨values, hvalues, hrun⟩

end ForkJoin.Sorting

import ForkJoin.Proofs.Sorting.Quarters
import ForkJoin.Sort

/-!
# A sort by a single worker is the recursive sort

The tasks of a sort, run one after the other by a single worker, make the same comparisons in the
same order as the recursive sort and leave the same elements, whatever the comparator answers. They
come to an end within the budget, announce it, and never leave their spans. The positions of an
array are numbers of 64 bits, so no latch is ever waiting for more reports than it can count.
-/
namespace ForkJoin.Sorting

open Calling Work

variable {α : Type}

theorem sortFits_start {xs : Array α} (hxs : xs.size < 2 ^ 64) :
    SortFits 0 0 xs.size (Store.start xs xs) := by
  refine ⟨?_, ?_, hxs⟩ <;> simp [Store.start, Store.buffer]

/-- The tasks come to their end, and announce it. -/
theorem follows_tasks {g : Nat} (hg : 0 < g) {xs : Array α} (hxs : xs.size < 2 ^ 64) :
    Follows (Follows.Ends fun end_ ys => end_.1 = [] ∧ end_.2.completed = true ∧
        end_.2.array.toList = ys)
      (alone (Task.run g) (budget xs.size) [.sort (.root 0) ⟨0, xs.size⟩ 0] (Store.start xs xs))
      (sortQuarters g hg xs.toList) := by
  have hforks := forks_le g hg xs.size
  have hseg : (Store.start xs xs).segment .array ⟨0, xs.size⟩ = xs.toList := by
    simp [Store.segment, Store.buffer, Store.start, Span.stop]
  rw [budget, alone_sort (Nat.succ_pos _), Nat.succ_sub_one]
  have hsorting := follows_sorting g hg xs.size (.root 0) [] [] (K := 4 * (xs.size * xs.size))
    (k := 0) (sortFits_start hxs) (by omega)
  rw [hseg] at hsorting
  refine hsorting.mono ?_
  rintro ys _ ⟨K', s', _, rfl, hs'⟩
  have hroot : s'.pending[0]? = some 0 := hs'.frame.pending_eq rfl
  rw [reporting_root hroot, List.append_nil, alone_nil]
  refine ⟨_, rfl, rfl, rfl, ?_⟩
  have hall : s'.array.size = xs.size := hs'.frame.size .array
  rw [← hs'.segment, Store.segment, Span.stop, Nat.zero_add, ← hall]
  exact congrArg Array.toList Array.extract_size.symm

/-- **A sort by a single worker is the sort by quarters.** -/
theorem sortArray_some {g : Nat} (hg : 0 < g) {xs : Array α} (hxs : xs.size < 2 ^ 64) :
    sortArray (some g) xs = List.toArray <$> sortQuarters g hg xs.toList := by
  rw [sortArray, sortArrayUnder, ← bind_pure_comp]
  apply Follows.eq
  simp only [runTasks, Work.drain, StateT.run_bind, Calling.bind_bind]
  refine (follows_tasks hg hxs).seq ?_
  rintro ⟨_, s'⟩ _ ⟨rfl, hend, rfl⟩
  have hend' : s'.completed = true := hend
  simp only [List.isEmpty_nil, if_true, StateT.run_pure, Calling.pure_eq, Calling.done_bind,
    StateT.run_get, hend']
  exact .done rfl

/-- Without a granularity, the whole is a leaf. -/
theorem sortArray_none (xs : Array α) :
    sortArray none xs = List.toArray <$> sortShort xs.toList := by
  rw [sortArray, sortArrayUnder, ← bind_pure_comp]
  apply Follows.eq
  refine (follows_mergeSort (Nat.le_refl _)).seq ?_
  rintro ⟨sorted, left⟩ _ ⟨rfl, _, _⟩
  exact .done rfl

/-- A window of an array is no longer than the array. -/
theorem size_extract_lt {xs : Array α} (hxs : xs.size < 2 ^ 64) (start stop : Nat) :
    (xs.extract start stop).size < 2 ^ 64 := by
  rw [Array.size_extract]
  omega

/-- What the recursive sorts ensure, the sort of a window ensures for any tuning. -/
theorem ofWindow_ensures {K : Contract α Ordering} {Q : List α → Prop} {xs : Array α}
    (hxs : xs.size < 2 ^ 64) (hshort : (sortShort xs.toList).Ensures K Q)
    (hquarters : ∀ g (hg : 0 < g), (sortQuarters g hg xs.toList).Ensures K Q) (tuning : Tuning) :
    (ofWindow tuning xs).Ensures K fun ys => Q ys.toList := by
  rw [ofWindow, ofWindowUnder, ← sortArray]
  cases h : tuning.sortGranularity? xs.size with
  | none =>
    rw [sortArray_none]
    exact Ensures.map (f := List.toArray) hshort
  | some g =>
    have hg := Tuning.sortGranularity?_pos h
    rw [sortArray_some hg hxs]
    exact Ensures.map (f := List.toArray) (hquarters g hg)

end ForkJoin.Sorting

namespace ForkJoin

open Calling

variable {α ε : Type}

/-- A sort of a window with a comparator that keeps its side of a contract; what is outside the
window stays. -/
theorem exists_sortWith {K : Contract α Ordering} {Q : List α → Prop} {tuning : Tuning}
    {cmp : α → α → Except ε Ordering}
    (hcmp : ∀ a b, K.asks a b → ∃ o, cmp a b = .ok o ∧ K.answers a b o)
    {xs : Array α} {w : Window} (hw : w.check xs.size = .ok ())
    (hsort : (Sorting.ofWindow tuning (xs.extract w.start w.stop)).Ensures K fun ys => Q ys.toList)
    (hlen : ∀ ys, Q ys → ys.length = (xs.extract w.start w.stop).size) :
    ∃ calls ys values, sortWith tuning cmp xs w = .ok ⟨values, calls⟩ ∧
      values.toList = xs.toList.take w.start ++ ys ++ xs.toList.drop w.stop ∧ Q ys := by
  obtain ⟨report, hrun, hys⟩ := exists_run hcmp hsort
  obtain ⟨hstart, hstop⟩ := Window.check_eq_ok_iff.1 hw
  have hlen' : w.start + report.result.toList.length = w.stop := by
    rw [hlen _ hys, Array.size_extract]
    omega
  refine ⟨report.calls, report.result.toList, overwrite xs w.start report.result.toList, ?_, ?_,
    hys⟩
  · rw [sortWith, sortUnder, hw, ← Sorting.ofWindow, hrun]
    rfl
  · rw [toList_overwrite _ _ _ (by omega), hlen']

end ForkJoin

import ForkJoin.Sorting.Tasks
import ForkJoin.Tuning

/-!
# Sorts

A sort arranges the elements of a window by a comparator, stably: elements that compare equal keep
their order. With a granularity it is cut in tasks, and a policy says in which order they are run;
without one it is the sort of one worker. Nothing is asked of the workspace but its length.

The entry points that name no policy run the tasks by one worker; they differ in where the
comparator, the window and the tuning come from.
-/
namespace ForkJoin

variable {α ε κ : Type}

/-! ## One sort from start to end -/

namespace Sorting

/-- As many tasks as the sort of `len` elements can run, and more. A span that is cut leaves its
quarters and forks at most twice its length of merges, for which there is room between the square
of its length and those of the lengths of its quarters. -/
def budget (len : Nat) : Nat := 4 * (len * len) + 1

/-- Sorts the array of the store, of so many elements, by tasks in the order of the policy
(`execute`). -/
def runTasks (granularity : Nat) (policy : Policy) (len : Nat) : Access α Unit := do
  Work.drain (Task.run granularity) policy (budget len) (.sort (.root 0) ⟨0, len⟩ 0)
  if (← get).completed then pure () else Action.fail .unfinished

/-- Sorts a whole array under a policy; the workspace is a copy of it. -/
def sortArrayUnder (policy : Policy) (granularity? : Option Nat) (xs : Array α) :
    Calling α Ordering (Array α) :=
  match granularity? with
  | none => do
    let (sorted, _) ← mergeSort xs.toList xs.toList
    return sorted.toArray
  | some g => do
    let (_, s) ← (runTasks g policy xs.size).run (Store.start xs xs)
    return s.array

/-- Sorts a whole array by one worker. -/
def sortArray (granularity? : Option Nat) (xs : Array α) : Calling α Ordering (Array α) :=
  sortArrayUnder .depthFirst granularity? xs

/-- The sort of the elements of a window, which depends on nothing else (`sort`). -/
def ofWindowUnder (policy : Policy) (tuning : Tuning) (xs : Array α) :
    Calling α Ordering (Array α) :=
  sortArrayUnder policy (tuning.sortGranularity? xs.size) xs

/-- The sort of the elements of a window by one worker. -/
def ofWindow (tuning : Tuning) (xs : Array α) : Calling α Ordering (Array α) :=
  ofWindowUnder .depthFirst tuning xs

end Sorting

/-! ## Entry points -/

/-- Sorts a window of `xs` under a policy; elements outside it are neither read nor changed
(`parallel_sort_with`). -/
def sortUnder (policy : Policy) (tuning : Tuning) (cmp : α → α → Except ε Ordering) (xs : Array α)
    (w : Window) : Except (Failure ε) (Report α (Array α)) :=
  match w.check xs.size with
  | .error why => .error (.window why)
  | .ok () => do
    let report ← (Sorting.ofWindowUnder policy tuning (xs.extract w.start w.stop)).run cmp
    return { report with result := overwrite xs w.start report.result.toList }

/-- Sorts a window by one worker. -/
def sortWith (tuning : Tuning) (cmp : α → α → Except ε Ordering) (xs : Array α) (w : Window) :
    Except (Failure ε) (Report α (Array α)) :=
  sortUnder .depthFirst tuning cmp xs w

/-- Sorts a window with the tuning for so many threads (`parallel_sort_range_by`). -/
def sortWindowBy (threads : Count) (cmp : α → α → Except ε Ordering) (xs : Array α)
    (w : Window) : Except (Failure ε) (Report α (Array α)) :=
  sortWith (Tuning.ofThreads threads) cmp xs w

/-- Sorts all of an array with the tuning for so many threads (`parallel_sort_by`). -/
def sortBy (threads : Count) (cmp : α → α → Except ε Ordering) (xs : Array α) :
    Except (Failure ε) (Report α (Array α)) :=
  sortWindowBy threads cmp xs (Window.all xs.size)

/-- Sorts all of an array by the order of the keys of its elements (`parallel_sort_by_key`). -/
def sortByKey [Ord κ] (threads : Count) (key : α → κ) (xs : Array α) :
    Except (Failure ε) (Report α (Array α)) :=
  sortBy threads (fun a b => .ok (compare (key a) (key b))) xs

/-- Sorts all of an array by the order of its elements (`parallel_sort`). -/
def sort [Ord α] (threads : Count) (xs : Array α) : Except (Failure ε) (Report α (Array α)) :=
  sortBy threads (fun a b => .ok (compare a b)) xs

end ForkJoin

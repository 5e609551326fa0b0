import ForkJoin.Proofs.Script
import ForkJoin.Sorting.Cut
import ForkJoin.Sorting.MergeSort

/-!
# A parallel sort as one recursive function

What the tasks of a sort do, told without buffers, latches or tasks. A list longer than the
granularity is sorted by its quarters: the two lower ones are merged, then the two upper ones, then
the halves. A merge of long runs is cut, and what lies before the cut is merged before what lies
behind it. A short list is sorted by halves, and the scratch area that one worker has for this is
left out as well.
-/
namespace ForkJoin.Sorting

variable {α : Type}

/-- The sort of one worker, without its scratch area. -/
def sortShort (xs : List α) : Calling α Ordering (List α) :=
  if _h : xs.length ≤ insertionLimit then insertionSort xs
  else do
    let left ← sortShort (xs.take (xs.length / 2))
    let right ← sortShort (xs.drop (xs.length / 2))
    match left.getLast?, right.head? with
    | some a, some b =>
      if (← Calling.ask a b) = .gt then merge left right else return left ++ right
    | _, _ => .fault .outOfBounds
termination_by xs.length
decreasing_by
  all_goals
    have : 16 < xs.length := Nat.lt_of_not_le _h
    simp only [List.length_take, List.length_drop]
    omega

/-- Merges two runs, cut as often as they are too long. -/
def splitMerge (granularity : Nat) (left right : List α) : Calling α Ordering (List α) := do
  match ← cut? granularity left.toArray right.toArray left.length right.length with
  | none => merge left right
  | some c =>
    have := c.shrinks
    -- a granularity of zero would cut off nothing of a single element, without end
    if _h : 0 < c.left + c.right then
      let head ← splitMerge granularity (left.take c.left) (right.take c.right)
      let tail ← splitMerge granularity (left.drop c.left) (right.drop c.right)
      return head ++ tail
    else .fault .unfinished
termination_by left.length + right.length
decreasing_by
  all_goals
    have := c.left_le
    have := c.right_le
    simp only [List.length_take, List.length_drop]
    omega

/-- Sorts a list by its quarters. -/
def sortQuarters (granularity : Nat) (hg : 0 < granularity) (xs : List α) :
    Calling α Ordering (List α) :=
  if granularity < xs.length then do
    let half := xs.length / 2
    let quarter := half / 2
    let first ← sortQuarters granularity hg (xs.take quarter)
    let second ← sortQuarters granularity hg ((xs.drop quarter).take (half - quarter))
    let lower ← splitMerge granularity first second
    let third ← sortQuarters granularity hg ((xs.drop half).take quarter)
    let fourth ← sortQuarters granularity hg (xs.drop (half + quarter))
    let upper ← splitMerge granularity third fourth
    splitMerge granularity lower upper
  else sortShort xs
termination_by xs.length
decreasing_by
  all_goals
    simp only [List.length_take, List.length_drop]
    omega

end ForkJoin.Sorting

import ForkJoin.Calling

/-!
# The sort of one worker

A top-down merge sort with a scratch area of the same length: halves are sorted each within its
half of the scratch area, and if the last of the left half does not compare greater than the first
of the right one, that is all. Otherwise both are copied to the scratch area and merged back.

Short arrays are sorted by inserting one element after the other, and leave the scratch area alone.
The sorted part is kept with its last element first, so an element is compared with the end of that
part and moves towards the front only past elements that it is less than: of two that compare equal,
the later stays behind.

In a merge the next element is taken from the left run unless it compares greater than the first of
the right one, so ties are taken from the left first. Once a run is used up the other follows as it
is.
-/
namespace ForkJoin.Sorting

variable {α : Type}

/-! ## Insertion -/

/-- Puts an element into its place among sorted ones, the last of them first: the inner loop of
`insertion_sort`. -/
def insert (item : α) : List α → Calling α Ordering (List α)
  | [] => .done [item]
  | y :: ys => .call item y fun o =>
    if o = .lt then (y :: ·) <$> insert item ys else .done (item :: y :: ys)

/-- Inserts one element after the other: its outer loop. -/
def insertAll (sorted : List α) : List α → Calling α Ordering (List α)
  | [] => .done sorted.reverse
  | x :: xs => do insertAll (← insert x sorted) xs

/-- Sorts by insertion (`insertion_sort`). -/
def insertionSort (xs : List α) : Calling α Ordering (List α) := insertAll [] xs

/-! ## Merging two runs -/

/-- Merges two runs behind `out`, which holds what was merged before, the last element first. -/
def mergeInto (out : List α) : List α → List α → Calling α Ordering (List α)
  | [], right => .done (out.reverseAux right)
  | left, [] => .done (out.reverseAux left)
  | x :: xs, y :: ys => .call x y fun o =>
    if o = .gt then mergeInto (y :: out) (x :: xs) ys else mergeInto (x :: out) xs (y :: ys)
termination_by left right => left.length + right.length

/-- Merges two runs (`merge`). -/
def merge (left right : List α) : Calling α Ordering (List α) := mergeInto [] left right

/-! ## The whole -/

/-- The longest array that is sorted by insertion (`INSERTION_SORT_THRESHOLD`). -/
def insertionLimit : Nat := 16

/-- Sorts `xs`; returns what is in the scratch area afterwards too (`merge_sort`). -/
def mergeSort (xs scratch : List α) : Calling α Ordering (List α × List α) :=
  if _h : xs.length ≤ insertionLimit then (·, scratch) <$> insertionSort xs
  else if scratch.length < xs.length then .fault .outOfBounds
  else do
    let mid := xs.length / 2
    let (left, scratchLeft) ← mergeSort (xs.take mid) (scratch.take mid)
    let (right, scratchRight) ← mergeSort (xs.drop mid) (scratch.drop mid)
    match left.getLast?, right.head? with
    | some a, some b =>
      if (← Calling.ask a b) = .gt then
        let merged ← merge left right
        return (merged, left ++ right ++ scratch.drop xs.length)
      else return (left ++ right, scratchLeft ++ scratchRight)
    | _, _ => .fault .outOfBounds
termination_by xs.length
decreasing_by
  all_goals
    have : 16 < xs.length := Nat.lt_of_not_le _h
    simp only [List.length_take, List.length_drop]
    omega

end ForkJoin.Sorting

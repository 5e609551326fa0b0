import ForkJoin.Sorting.Cut
import ForkJoin.Sorting.MergeSort
import ForkJoin.Sorting.Store

/-!
# The tasks of a parallel sort

A span longer than the granularity is cut in quarters. The quarters are sorted in place; the two
lower ones are merged into the lower half of the workspace and the two upper ones into the upper
half; then the halves are merged back into the array. A merge of long runs forks the merging of
what lies behind a cut.

A task runs to its end, and so does what its report triggers. It returns the tasks that it forked,
the last one first.
-/
namespace ForkJoin.Sorting

/-- A forked task, and the latch to which its end is reported. -/
inductive Task where
  /-- Sorts a span of the array, with the workspace from position `scratch` on. -/
  | sort (latch : Latch) (span : Span) (scratch : Nat)
  | merge (latch : Latch) (merge : Merge)
  deriving DecidableEq

namespace Task

open Access

variable {α : Type}

/-! ## Merging -/

/-- Cuts the first `ln` and `rn` elements of two runs as often as they are too long, and forks the
merging of what lies behind each cut. Returns how much is left of either run, and what was
forked: the loop of `Merger`. -/
def forkTails (granularity : Nat) (latch : Latch) (m : Merge) (left right : Array α)
    (ln rn : Nat) (forked : List Task) : Access α (Nat × Nat × List Task) := do
  match ← Action.ofCalling (cut? granularity left right ln rn) with
  | none => return (ln, rn, forked)
  | some c =>
    note (.did latch (.search m.source ⟨m.left.start, ln⟩ ⟨m.right.start, rn⟩))
    raise latch
    let part ← openPart latch
    have := c.shrinks
    forkTails granularity latch m left right c.left c.right
      (merge part (m.tail ln rn c.left c.right) :: forked)
termination_by ln + rn

/-- Merges two runs but for what it forks (`compute` of `Merger`). -/
def mergeHead (granularity : Nat) (latch : Latch) (m : Merge) : Access α (List Task) := do
  let left ← read m.source m.left
  let right ← read m.source m.right
  let (ln, rn, forked) ← forkTails granularity latch m left right m.left.len m.right.len []
  let merged ← Action.ofCalling (Sorting.merge (left.toList.take ln) (right.toList.take rn))
  write m.source.other (m.head ln rn).target merged
  note (.did latch (.merge (m.head ln rn)))
  return forked

/-- Reports the end of a piece of work, and does what hangs on that: the last report to a latch
triggers its merge, and is passed on (`try_complete` and `on_completion`). -/
def report (granularity : Nat) : Latch → Access α (List Task)
  | .root id => do
    if ← arrive (.root id) then announce
    return []
  | .part id whole => do
    if ← arrive (.part id whole) then report granularity whole else return []
  | .trigger id m next => do
    if ← arrive (.trigger id m next) then
      let forked ← mergeHead granularity next m
      let later ← report granularity next
      return later ++ forked
    else return []

/-! ## Sorting -/

/-- Forks the sorting of the upper three quarters as often as a span is too long, with the merges
that follow: the loop of `Sorter`. Returns the latch of the lowest quarter, its length, and what was
forked. -/
def forkQuarters (granularity : Nat) (latch : Latch) (start len scratch : Nat)
    (forked : List Task) : Access α (Latch × Nat × List Task) :=
  if granularity < len then do
    let half := len / 2
    let quarter := half / 2
    let high := half + quarter
    let back ← openTrigger {
      source := .workspace
      left := ⟨scratch, half⟩
      right := ⟨scratch + half, len - half⟩
      dest := start } latch
    let upper ← openTrigger {
      source := .array
      left := ⟨start + half, quarter⟩
      right := ⟨start + high, len - high⟩
      dest := scratch + half } back
    let fourth := sort (← openPart upper) ⟨start + high, len - high⟩ (scratch + high)
    let third := sort (← openPart upper) ⟨start + half, quarter⟩ (scratch + half)
    let lower ← openTrigger {
      source := .array
      left := ⟨start, quarter⟩
      right := ⟨start + quarter, half - quarter⟩
      dest := scratch } back
    let second := sort (← openPart lower) ⟨start + quarter, half - quarter⟩ (scratch + quarter)
    let first ← openPart lower
    forkQuarters granularity first start quarter scratch (second :: third :: fourth :: forked)
  else return (latch, len, forked)
termination_by len

/-- Sorts a span but for what it forks (`compute` of `Sorter`); returns the latch of what was
sorted. -/
def sortFirst (granularity : Nat) (latch : Latch) (span : Span) (scratch : Nat) :
    Access α (Latch × List Task) := do
  let (first, len, forked) ← forkQuarters granularity latch span.start span.len scratch []
  let xs ← read .array ⟨span.start, len⟩
  let ws ← read .workspace ⟨scratch, len⟩
  let (sorted, left) ← Action.ofCalling (mergeSort xs.toList ws.toList)
  write .array ⟨span.start, len⟩ sorted
  write .workspace ⟨scratch, len⟩ left
  note (.did first (.sort ⟨span.start, len⟩ ⟨scratch, len⟩))
  return (first, forked)

/-- Runs a task to its end. -/
def run (granularity : Nat) : Task → Access α (List Task)
  | sort latch span scratch => do
    let (first, forked) ← sortFirst granularity latch span scratch
    let later ← report granularity first
    return later ++ forked
  | merge latch m => do
    let forked ← mergeHead granularity latch m
    let later ← report granularity latch
    return later ++ forked

end Task

end ForkJoin.Sorting

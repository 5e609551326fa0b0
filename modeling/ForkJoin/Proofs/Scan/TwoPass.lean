import ForkJoin.Scan.Visit

/-!
# A scan as one recursive function

What the visits of a scan do, told without a layout, phases, slots or tasks. The first pass takes
the sum of a span from the bottom up and remembers the sums of all left halves; the second replaces
the elements from the top down, with the sum of what precedes a span carried in. Nothing precedes
the span at the very start of the window, so its left half is gone through by both passes before
the right half is looked at, and what is needed of it is its sum only. Nobody needs the sum of a
span that ends where the window does.
-/
namespace ForkJoin.Scan

variable {α : Type}

/-- What the first pass leaves of a span for the second: the elements of its leaves, and the sum of
the left half wherever it was cut. -/
inductive Summed (α : Type) where
  | leaf (elems : List α)
  | node (left : Summed α) (sum : α) (right : Summed α)

/-- What is there, or a fault: of a span with no element there is no sum. -/
def orEmpty {β γ : Type} : Option γ → Calling α β γ
  | some c => .done c
  | none => .fault .emptySlot

/-- The first pass over a span that does not end with the window; returns its sum too. -/
def sumUp (threshold : Nat) (ht : 0 < threshold) (xs : List α) :
    Calling α α (Summed α × α) :=
  if threshold < xs.length then do
    let (left, x) ← sumUp threshold ht (xs.take (xs.length / 2))
    let (right, y) ← sumUp threshold ht (xs.drop (xs.length / 2))
    return (.node left x right, ← Calling.ask x y)
  else return (.leaf xs, ← orEmpty (← fold xs))
termination_by xs.length
decreasing_by all_goals simp only [List.length_take, List.length_drop]; omega

/-- The first pass over a span that ends with the window. -/
def sumLast (threshold : Nat) (ht : 0 < threshold) (xs : List α) : Calling α α (Summed α) :=
  if threshold < xs.length then do
    let (left, x) ← sumUp threshold ht (xs.take (xs.length / 2))
    return .node left x (← sumLast threshold ht (xs.drop (xs.length / 2)))
  else return .leaf xs
termination_by xs.length
decreasing_by simp only [List.length_drop]; omega

/-- The second pass over a span, with what precedes it. -/
def sweepDown (carry : α) : Summed α → Calling α α (List α)
  | .leaf xs => sweep (some carry) xs
  | .node left x right => do
    let before ← Calling.ask carry x
    return (← sweepDown carry left) ++ (← sweepDown before right)

/-- Both passes over a span at the start of the window, but not at its end; returns its sum too. -/
def scanFirst (threshold : Nat) (ht : 0 < threshold) (xs : List α) :
    Calling α α (List α × α) :=
  if threshold < xs.length then do
    let (left, x) ← scanFirst threshold ht (xs.take (xs.length / 2))
    let (right, y) ← sumUp threshold ht (xs.drop (xs.length / 2))
    let sum ← Calling.ask x y
    return (left ++ (← sweepDown x right), sum)
  else do
    let swept ← sweep none xs
    return (swept, ← orEmpty swept.getLast?)
termination_by xs.length
decreasing_by simp only [List.length_take]; omega

/-- Both passes over a whole window. -/
def scanAll (threshold : Nat) (ht : 0 < threshold) (xs : List α) : Calling α α (List α) :=
  if threshold < xs.length then do
    let (left, x) ← scanFirst threshold ht (xs.take (xs.length / 2))
    let right ← sumLast threshold ht (xs.drop (xs.length / 2))
    return left ++ (← sweepDown x right)
  else sweep none xs

end ForkJoin.Scan

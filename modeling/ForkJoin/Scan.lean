import ForkJoin.Scan.Visit
import ForkJoin.Tuning

/-!
# Scans

A scan replaces every element of a window by the sum of all elements of the window up to it, by
any operator, and tells the sum of all. The split tree of the elements is laid out, a visit of the
root is run with all that it forks, and the elements are returned as they are then. An empty array
has no tree.

A policy says how the steps of the visits are interleaved. The entry points that name none run the
visits by one worker; they differ in where the window and the tuning come from.
-/
namespace ForkJoin

variable {α ε : Type}

/-! ## One scan from start to end -/

namespace Scan

namespace Plan

/-- More steps than the visits take: each access of a node changes its phase, hands its matter on
to another node, or looks again because the phase was changed by another visit. -/
def budget (plan : Plan) : Nat := 64 * ((plan.nodes.size + 1) * (plan.nodes.size + 1))

/-- Runs the visits of a plan, their steps interleaved as the policy says (`execute`). -/
def run (plan : Plan) (policy : Policy) : Access α Unit := do
  Work.drain (Visit.step plan) policy plan.budget (.enter 0)
  if (← get).completed then pure () else Action.fail .unfinished

end Plan

/-- Scans a whole array under a policy. -/
def scanArrayUnder (policy : Policy) (threshold : Nat) (ht : 0 < threshold) (xs : Array α) :
    Calling α α (Array α) :=
  if xs.isEmpty then .done xs
  else do
    let plan := Plan.ofLength threshold ht xs.size
    let (_, s) ← (plan.run policy).run (Store.start plan xs)
    return s.cells

/-- Scans a whole array by one worker. -/
def scanArray (threshold : Nat) (ht : 0 < threshold) (xs : Array α) : Calling α α (Array α) :=
  scanArrayUnder .depthFirst threshold ht xs

/-- The scan of the elements of a window, which depends on nothing else (`cumulate`). -/
def ofWindowUnder (policy : Policy) (tuning : Tuning) (xs : Array α) : Calling α α (Array α) :=
  scanArrayUnder policy (tuning.scanThreshold xs.size) (tuning.scanThreshold_pos xs.size) xs

/-- The scan of the elements of a window by one worker. -/
def ofWindow (tuning : Tuning) (xs : Array α) : Calling α α (Array α) :=
  ofWindowUnder .depthFirst tuning xs

end Scan

/-! ## Entry points -/

/-- What a scan returns. -/
structure Scanned (α : Type) where
  /-- The sum of all elements of the window; none if it is empty. -/
  total : Option α
  /-- The array afterwards. -/
  values : Array α

/-- Scans a window of `xs` under a policy; elements outside it are neither read nor changed
(`parallel_prefix_with`). -/
def scanUnder (policy : Policy) (tuning : Tuning) (op : α → α → Except ε α) (xs : Array α)
    (w : Window) : Except (Failure ε) (Report α (Scanned α)) :=
  match w.check xs.size with
  | .error why => .error (.window why)
  | .ok () => do
    let report ← (Scan.ofWindowUnder policy tuning (xs.extract w.start w.stop)).run op
    return {
      result := ⟨report.result.back?, overwrite xs w.start report.result.toList⟩
      calls := report.calls }

/-- Scans a window by one worker. -/
def scanWith (tuning : Tuning) (op : α → α → Except ε α) (xs : Array α) (w : Window) :
    Except (Failure ε) (Report α (Scanned α)) :=
  scanUnder .depthFirst tuning op xs w

/-- Scans a window with the tuning for so many threads (`parallel_prefix_range`). -/
def scanWindow (threads : Count) (op : α → α → Except ε α) (xs : Array α) (w : Window) :
    Except (Failure ε) (Report α (Scanned α)) :=
  scanWith (Tuning.ofThreads threads) op xs w

/-- Scans all of an array with the tuning for so many threads (`parallel_prefix`). -/
def scan (threads : Count) (op : α → α → Except ε α) (xs : Array α) :
    Except (Failure ε) (Report α (Scanned α)) :=
  scanWindow threads op xs (Window.all xs.size)

end ForkJoin

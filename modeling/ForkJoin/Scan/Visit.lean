import ForkJoin.Scan.Store

/-!
# The visits of a scan

A scan makes two passes over its split tree, and the second may start below before the first has
ended above. Both are made by visits, which walk along the tree:

* in the first pass a visit goes down to the left and forks a visit to the right, takes the sum of
  a leaf, and reports it upwards;
* the second of two reports to a node adds up the sums of its children, and reports the result in
  turn, until the root is reached;
* a node whose children are summed gives each of them what precedes it, and wakes it: visits go
  down again, now sweeping the leaves, and report that.

Nothing precedes a node at the very start of the window, so its second pass starts as soon as its
children are summed. Nobody needs the sum of a node at the end of the window, so it is not taken.

At a leaf the elements of its segment are summed from left to right, or each is replaced by the sum
of all up to it, with the sum of what precedes the segment carried in.

A visit is where a walker stands and what it has in hand; `Visit.step` is one access of the shared
state, after which the walker stands elsewhere, has forked another, or is gone.
-/
namespace ForkJoin.Scan

/-! ## Segments -/

section

variable {α : Type}

/-- The sum of `acc` and the elements, from left to right. -/
def foldFrom (acc : α) : List α → Calling α α α
  | [] => .done acc
  | x :: xs => .call acc x fun sum => foldFrom sum xs

/-- The sum of a segment; none if it is empty (`fold_segment`). -/
def fold : List α → Calling α α (Option α)
  | [] => .done none
  | x :: xs => some <$> foldFrom x xs

/-- Goes on after `last`; `swept` are the elements swept so far, the last one first. -/
def sweepFrom (swept : List α) (last : α) : List α → Calling α α (List α)
  | [] => .done swept.reverse
  | x :: xs => .call last x fun sum => sweepFrom (sum :: swept) sum xs

/-- Replaces each element by the sum of the carry, if any, and all elements up to it
(`cumulate_segment`). -/
def sweep (carry : Option α) : List α → Calling α α (List α)
  | [] => .done []
  | x :: xs =>
    match carry with
    | none => sweepFrom [x] x xs
    | some c => .call c x fun sum => sweepFrom [sum] sum xs

end

/-! ## Visits -/

/-- Where a walker stands, and what it has in hand: a place in `compute` of `CumulateTask`, which
calls `combine_outs` from `addLeft` to `leaveSum` and `pass_carries` from `handDown` to
`giveRight`. -/
inductive Visit (α : Type) where
  /-- Comes to the node `t` from above. -/
  | enter (t : Nat)
  /-- Has seen the phase of the leaf `t`, and takes on what is to be done there. -/
  | takeOn (t : Nat) (seen : Phase)
  /-- Takes the sum of the leaf `t`. -/
  | total (t : Nat)
  /-- Needs what precedes the leaf `t`. -/
  | fetch (t : Nat) (gain : Gain)
  /-- Sweeps the leaf `t`. -/
  | sweep (t : Nat) (gain : Gain) (carry : Option α)
  /-- Leaves the sum of the leaf `t` in its slot. -/
  | leave (t : Nat) (gain : Gain) (sum : Option α)
  /-- Comes from the node `t` with something to report to its parent. -/
  | climb (t : Nat) (gain : Gain)
  /-- Is the first to report this to the parent of `t`. -/
  | deliver (t : Nat) (gain : Gain) (seen : Phase)
  /-- Is the second to report a sum to the parent of `t`, and needs the sum of its left child. -/
  | addLeft (t : Nat) (gain : Gain) (seen : Phase)
  /-- Has the sum of the left child of the parent of `t`, and needs that of the right one. -/
  | addRight (t : Nat) (gain : Gain) (seen : Phase) (left : α)
  /-- Leaves the sum of the parent of `t` in its slot. -/
  | leaveSum (t : Nat) (gain : Gain) (seen : Phase) (sum : α)
  /-- Makes known that both children of the parent of `t` are summed. -/
  | publish (t : Nat) (gain : Gain) (seen : Phase)
  /-- Is to tell the children of `t` what precedes them, and needs the sum of the left one. -/
  | handDown (t : Nat)
  /-- Has the sum of the left child of `t`, and needs what precedes `t`. -/
  | addCarry (t : Nat) (left : α)
  /-- Leaves with the left child of `t` what precedes it. -/
  | giveLeft (t : Nat) (carry right : α)
  /-- Leaves with the right child of `t` what precedes it. -/
  | giveRight (t : Nat) (right : α)
  /-- Wakes the right child of `t`. -/
  | wakeRight (t : Nat)
  /-- Wakes the left child of `t`; `right` tells whether the right one was asleep. -/
  | wakeLeft (t : Nat) (right : Bool)

namespace Plan

variable {α : Type} (plan : Plan) (t : Nat)

/-! ## The split tree, which never changes -/

def node : Access α Node := Action.demand .outOfBounds plan.nodes[t]?

/-- The parent of a node that has one. -/
def parent : Access α Nat := do Action.demand .emptySlot (← plan.node t).parent

/-- The children of a node that was split. -/
def children : Access α (Nat × Nat) := do Action.demand .emptySlot (← plan.node t).children

/-- Whether nothing comes after a span. -/
def isLast (span : Span) : Bool := span.stop == plan.len

variable {plan t} {n : Node}

theorem run_node (h : plan.nodes[t]? = some n) (s : Store α) :
    (plan.node t).run s = .done (n, s) := by
  rw [node, h, Action.run_demand_some]

theorem run_parent {p : Nat} (h : plan.nodes[t]? = some n) (hp : n.parent = some p)
    (s : Store α) : (plan.parent t).run s = .done (p, s) := by
  simp [parent, run_node h, hp]

theorem run_children {c : Nat × Nat} (h : plan.nodes[t]? = some n) (hc : n.children = some c)
    (s : Store α) : (plan.children t).run s = .done (c, s) := by
  simp [children, run_node h, hc]

end Plan

namespace Visit

open Access

variable {α : Type}

/-- One step of a walker, from one access in `compute` to the next. Of what goes on in its place,
the walker itself comes first. -/
def step (plan : Plan) : Visit α → Access α (List (Visit α))
  | enter t => do
    let n ← plan.node t
    if plan.threshold < n.span.len then
      let (left, right) ← plan.children t
      if (← load t).awake then return [handDown t] else return [enter left, enter right]
    else
      let seen ← load t
      if seen.finished then return [] else return [takeOn t seen]
  | takeOn t seen => do
    let n ← plan.node t
    let gain := Gain.ofLeaf seen n.span.start
    if ← compareAndSet t seen (seen.add gain) then
      if gain = .summed then return [total t]
      else if n.span.start = 0 then return [sweep t gain none]
      else return [fetch t gain]
    else return [enter t]
  | total t => do
    let n ← plan.node t
    if plan.isLast n.span then return [leave t .summed none]
    else
      let sum ← Action.ofCalling (fold (← segment n.span))
      note (.summed t)
      return [leave t .summed sum]
  | fetch t gain => return [sweep t gain (some (← carry t))]
  | sweep t gain before => do
    let n ← plan.node t
    let swept ← Action.ofCalling (Scan.sweep before (← segment n.span))
    setSegment n.span swept
    note (.swept t)
    return [leave t gain swept.getLast?]
  | leave t gain x => do
    setSum t x
    return [climb t gain]
  | climb t gain => do
    match (← plan.node t).parent with
    | none =>
      if gain.hasFinished then announce
      return []
    | some p =>
      let seen ← load p
      if seen.finished && gain.hasFinished then return [climb p gain]
      else if seen.summed && gain.hasSummed then return [addLeft t gain seen]
      else return [deliver t gain seen]
  | deliver t gain seen => do
    let p ← plan.parent t
    if ← compareAndSet p seen (seen.add gain) then return [] else return [climb t gain]
  | addLeft t gain seen => do
    let (left, right) ← plan.children (← plan.parent t)
    let x ← sum left
    if plan.isLast (← plan.node right).span then return [leaveSum t gain seen x]
    else return [addRight t gain seen x]
  | addRight t gain seen x => do
    let (_, right) ← plan.children (← plan.parent t)
    return [leaveSum t gain seen (← Action.ask x (← sum right))]
  | leaveSum t gain seen x => do
    setSum (← plan.parent t) (some x)
    return [publish t gain seen]
  | publish t gain seen => do
    let p ← plan.parent t
    let next := seen.join gain (← plan.node p).span.start
    if next = seen then return [climb p .summed]
    else if ← compareAndSet p seen next then
      if next.awake && !seen.awake then return [climb p .summed, enter p]
      else return [climb p .summed]
    else return [climb t gain]
  | handDown t => do
    let (left, _) ← plan.children t
    let x ← sum left
    if (← plan.node t).span.start = 0 then return [giveRight t x] else return [addCarry t x]
  | addCarry t x => do
    let before ← carry t
    return [giveLeft t before (← Action.ask before x)]
  | giveLeft t before right => do
    setCarry (← plan.children t).1 before
    return [giveRight t right]
  | giveRight t right => do
    setCarry (← plan.children t).2 right
    return [wakeRight t]
  | wakeRight t => do
    return [wakeLeft t (← wake (← plan.children t).2)]
  | wakeLeft t asleep => do
    let (left, right) ← plan.children t
    let forked := if asleep then [enter right] else []
    if ← wake left then return enter left :: forked else return forked

end Visit

end ForkJoin.Scan

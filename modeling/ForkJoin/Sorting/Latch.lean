import ForkJoin.Span

/-!
# Who is told of the end of a piece of work

In a parallel sort nobody waits for anybody. What is to follow a piece of work hangs on the latch
to which its end is reported: a latch counts the reports still to come, and the last report to it
is passed on to the latch it is a part of, up to the root, or triggers a merge, which reports to
another latch in turn.

The counter of a latch holds the number of reports still to come besides the last one. Who arrives
with a report looks at the counter: at zero its report is the last, and it goes on with what hangs
on the latch; otherwise it takes one off and is gone. Looking and taking off are two steps, and if
the counter has changed in between it looks again. Taking off may also fail for no reason.
-/
namespace ForkJoin.Sorting

/-! ## Latches -/

/-- The array to be sorted, or the workspace of the same length (`Source`). -/
inductive Buffer where
  | array
  | workspace
  deriving DecidableEq

/-- The buffer into which runs in this one are merged (`buffers`). -/
def Buffer.other : Buffer → Buffer
  | array => workspace
  | workspace => array

/-- Two runs in one buffer, to be merged into the other from position `dest` on. -/
structure Merge where
  source : Buffer
  left : Span
  right : Span
  dest : Nat
  deriving DecidableEq

/-- Where a merge writes. -/
def Merge.target (m : Merge) : Span := ⟨m.dest, m.left.len + m.right.len⟩

/-- The merge of the first `ln` and `rn` elements. -/
def Merge.head (m : Merge) (ln rn : Nat) : Merge where
  source := m.source
  left := ⟨m.left.start, ln⟩
  right := ⟨m.right.start, rn⟩
  dest := m.dest

/-- The merge of what the first `ln` and `rn` elements have behind their first `lh` and `rh`. -/
def Merge.tail (m : Merge) (ln rn lh rh : Nat) : Merge where
  source := m.source
  left := ⟨m.left.start + lh, ln - lh⟩
  right := ⟨m.right.start + rh, rn - rh⟩
  dest := m.dest + lh + rh

/-- A latch with all that hangs on it (`Completer`). Its counter is known by its number. -/
inductive Latch where
  /-- The end of the whole sort. -/
  | root (id : Nat)
  /-- A part of what is reported to another latch. -/
  | part (id : Nat) (whole : Latch)
  /-- Triggers a merge, which reports to the next latch. -/
  | trigger (id : Nat) (merge : Merge) (next : Latch)
  deriving DecidableEq

/-- The number of a latch's counter. -/
def Latch.id : Latch → Nat
  | root id | part id _ | trigger id _ _ => id

/-! ## Arrivals -/

/-- How far one party has come with its report. -/
inductive Arrival where
  /-- About to look at the counter. -/
  | look
  /-- Has seen the counter above zero, and is about to take one off. -/
  | takeOff (seen : UInt32)
  /-- Has found the counter at zero. -/
  | last
  /-- Has taken one off. -/
  | gone
  deriving DecidableEq

namespace Arrival

/-- One step of a party, which leaves the counter as it is or takes one off: a load or an exchange
in the loop of `try_complete`. -/
def step (spurious : Bool) : Arrival → UInt32 → Arrival × UInt32
  | look, pending => if pending = 0 then (last, pending) else (takeOff pending, pending)
  | takeOff seen, pending =>
    if pending = seen ∧ spurious = false then (gone, pending - 1) else (look, pending)
  | last, pending => (last, pending)
  | gone, pending => (gone, pending)

/-- An arrival that nobody interferes with: all of that loop. -/
def alone (pending : UInt32) : Arrival × UInt32 :=
  let (a, pending) := step false look pending
  step false a pending

theorem alone_zero : alone 0 = (last, 0) := rfl

theorem alone_of_ne_zero {pending : UInt32} (h : pending ≠ 0) :
    alone pending = (gone, pending - 1) := by
  simp [alone, step, h]

end Arrival

end ForkJoin.Sorting

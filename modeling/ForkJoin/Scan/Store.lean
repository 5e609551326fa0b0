import ForkJoin.Pool
import ForkJoin.Scan.Layout

/-!
# The state that the visits of a scan share

How far a node of the split tree has come is one word, its phase, which every visit reads and
replaces in single steps. A leaf is summed and is swept, one after the other or both at once. A node
with children is told of either by each of them, and the word remembers that one of the two has: who
comes first leaves a mark, who finds the mark takes the matter further up.

Next to the elements, each node has a phase and two slots by which visits hand sums to each other:
the sum of what precedes the node, left there from above, and the sum of what lies below it, left
there from below. A step of a visit reads or writes one phase or one slot, or works through the
segment of one leaf, so a run of visits is an interleaving of single accesses.
-/
namespace ForkJoin.Scan

/-! ## Phases -/

/-- What is known about a node (`State`). -/
structure Phase where
  /-- The second pass has come to the node: what precedes it has been left in its slot
  (`CUMULATE`). -/
  awake : Bool := false
  /-- The leaf is summed; one of the children is (`SUMMED`). -/
  summed : Bool := false
  /-- The leaf is swept; all leaves below one of the children are (`FINISHED`). -/
  finished : Bool := false
  deriving DecidableEq

/-- What a visit has to report to a parent: a sum, a sweep, or both at once. -/
inductive Gain where
  | summed
  | finished
  | both
  deriving DecidableEq

namespace Gain

def hasSummed : Gain → Bool
  | summed | both => true
  | finished => false

def hasFinished : Gain → Bool
  | finished | both => true
  | summed => false

/-- What a visit may do to the leaf that starts at `start`: nothing precedes the one at the very
start, so its sum and its sweep are one. -/
def ofLeaf (seen : Phase) (start : Nat) : Gain :=
  if seen.awake then finished else if 0 < start then summed else both

end Gain

namespace Phase

/-- The phase after a report. -/
def add (p : Phase) (g : Gain) : Phase where
  awake := p.awake
  summed := p.summed || g.hasSummed
  finished := p.finished || g.hasFinished

/-- The phase of a node that starts at `start` once both its children are summed. Nothing precedes
a node at the very start, so this wakes it. -/
def join (p : Phase) (g : Gain) (start : Nat) : Phase :=
  { p.add g with awake := p.awake || start == 0 }

end Phase

/-! ## The shared state -/

/-- What the log of a run tells. -/
inductive Event where
  /-- The sum of the leaf `t` was taken. -/
  | summed (t : Nat)
  /-- The elements of the leaf `t` were replaced. -/
  | swept (t : Nat)
  /-- The end of the run was announced. -/
  | completed
  deriving DecidableEq

/-- The shared state. -/
structure Store (α : Type) where
  cells : Array α
  phases : Array Phase
  /-- What precedes a node (`carry_in`). -/
  carries : Array (Option α)
  /-- What lies below a node (`out`). -/
  sums : Array (Option α)
  completed : Bool := false
  log : Array Event := #[]

/-- Nothing is known about any node, and nothing was left anywhere. -/
def Store.start {α : Type} (plan : Plan) (cells : Array α) : Store α where
  cells := cells
  phases := Array.replicate plan.nodes.size {}
  carries := Array.replicate plan.nodes.size none
  sums := Array.replicate plan.nodes.size none

/-! ## Accesses -/

/-- What a visit does. -/
abbrev Access (α : Type) := Action (Store α) α α

namespace Access

variable {α : Type}

/-! ### Phases -/

/-- Looks at the phase of `t` (`load`). -/
def load (t : Nat) : Access α Phase := fun s =>
  match s.phases[t]? with
  | some p => .done (p, s)
  | none => .fault .outOfBounds

theorem run_load {t : Nat} {s : Store α} {p : Phase} (h : s.phases[t]? = some p) :
    (load t).run s = .done (p, s) := by
  simp only [load, StateT.run, h]

/-- Replaces the phase of `t` if it is still the one seen before; tells whether it was
(`compare_and_set`). -/
def compareAndSet (t : Nat) (seen next : Phase) : Access α Bool := fun s =>
  match s.phases[t]? with
  | some p =>
    if p = seen then .done (true, { s with phases := s.phases.setIfInBounds t next })
    else .done (false, s)
  | none => .fault .outOfBounds

theorem run_compareAndSet {t : Nat} {s : Store α} {p : Phase} (h : s.phases[t]? = some p)
    (seen next : Phase) :
    (compareAndSet t seen next).run s =
      if p = seen then .done (true, { s with phases := s.phases.setIfInBounds t next })
      else .done (false, s) := by
  simp only [compareAndSet, StateT.run, h]

/-- Marks that the second pass has come to `t`; tells whether it had not before (`try_set`). -/
def wake (t : Nat) : Access α Bool := fun s =>
  match s.phases[t]? with
  | some p =>
    if p.awake then .done (false, s)
    else .done (true, { s with phases := s.phases.setIfInBounds t { p with awake := true } })
  | none => .fault .outOfBounds

theorem run_wake {t : Nat} {s : Store α} {p : Phase} (h : s.phases[t]? = some p) :
    (wake t).run s =
      if p.awake then .done (false, s)
      else .done (true,
        { s with phases := s.phases.setIfInBounds t { p with awake := true } }) := by
  simp only [wake, StateT.run, h]

/-! ### Slots -/

/-- What precedes `t`, which must have been left there (`carry_in`). -/
def carry (t : Nat) : Access α α := fun s =>
  match s.carries[t]? with
  | some (some c) => .done (c, s)
  | some none => .fault .emptySlot
  | none => .fault .outOfBounds

theorem run_carry {t : Nat} {s : Store α} {c : α} (h : s.carries[t]? = some (some c)) :
    (carry t).run s = .done (c, s) := by
  simp only [carry, StateT.run, h]

/-- Leaves what precedes `t` (`set_carry_in`). -/
def setCarry (t : Nat) (c : α) : Access α Unit := fun s =>
  .done ((), { s with carries := s.carries.setIfInBounds t (some c) })

@[simp] theorem run_setCarry (t : Nat) (c : α) (s : Store α) :
    (setCarry t c).run s =
      .done ((), { s with carries := s.carries.setIfInBounds t (some c) }) := rfl

/-- The sum of what lies below `t`, which must have been left there (`out`). -/
def sum (t : Nat) : Access α α := fun s =>
  match s.sums[t]? with
  | some (some x) => .done (x, s)
  | some none => .fault .emptySlot
  | none => .fault .outOfBounds

theorem run_sum {t : Nat} {s : Store α} {x : α} (h : s.sums[t]? = some (some x)) :
    (sum t).run s = .done (x, s) := by
  simp only [sum, StateT.run, h]

/-- Leaves the sum of what lies below `t` (`set_out`). -/
def setSum (t : Nat) (x : Option α) : Access α Unit := fun s =>
  .done ((), { s with sums := s.sums.setIfInBounds t x })

@[simp] theorem run_setSum (t : Nat) (x : Option α) (s : Store α) :
    (setSum t x).run s = .done ((), { s with sums := s.sums.setIfInBounds t x }) := rfl

/-! ### Elements -/

/-- Copies the elements of a span (`slice`). -/
def segment (span : Span) : Access α (List α) := fun s =>
  match span.read? s.cells with
  | some xs => .done (xs.toList, s)
  | none => .fault .outOfBounds

theorem run_segment {span : Span} {s : Store α} {xs : Array α}
    (h : span.read? s.cells = some xs) : (segment span).run s = .done (xs.toList, s) := by
  simp only [segment, StateT.run, h]

/-- Replaces the elements of a span (`slice_mut`). -/
def setSegment (span : Span) (xs : List α) : Access α Unit := fun s =>
  .done ((), { s with cells := overwrite s.cells span.start xs })

@[simp] theorem run_setSegment (span : Span) (xs : List α) (s : Store α) :
    (setSegment span xs).run s =
      .done ((), { s with cells := overwrite s.cells span.start xs }) := rfl

/-! ### The log -/

def note (e : Event) : Access α Unit := fun s => .done ((), { s with log := s.log.push e })

@[simp] theorem run_note (e : Event) (s : Store α) :
    (note e).run s = .done ((), { s with log := s.log.push e }) := rfl

/-- Announces the end of the run. -/
def announce : Access α Unit := fun s =>
  .done ((), { s with completed := true, log := s.log.push .completed })

@[simp] theorem run_announce (s : Store α) :
    (announce (α := α)).run s =
      .done ((), { s with completed := true, log := s.log.push .completed }) := rfl

end Access

end ForkJoin.Scan

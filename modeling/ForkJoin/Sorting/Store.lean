import ForkJoin.Pool
import ForkJoin.Sorting.Latch

/-!
# The state that the tasks of a sort share

The two buffers, and the counters of the latches. Every read and write of a buffer is of a span
that must lie within it. The log tells which pieces of work were done and what was reported; it
is read by nobody during the sort.
-/
namespace ForkJoin.Sorting

/-- A piece of work that reads and writes the buffers. -/
inductive Job where
  /-- A span of the array was sorted with a span of the workspace. -/
  | sort (span scratch : Span)
  /-- The place of a cut was sought in two runs. -/
  | search (source : Buffer) (left right : Span)
  /-- Two runs were merged without a further cut. -/
  | merge (merge : Merge)
  deriving DecidableEq

/-- What the log of a sort tells. -/
inductive Event where
  /-- A latch was made. -/
  | opened (latch : Latch)
  /-- One more report to it was announced. -/
  | raised (latch : Latch)
  /-- A report came to it, the last one or another. -/
  | arrived (latch : Latch) (last : Bool)
  /-- A piece of work was done, whose end is to be reported to it. -/
  | did (latch : Latch) (job : Job)
  /-- The end of the sort was announced. -/
  | completed
  deriving DecidableEq

/-- The shared state (`Sort`). -/
structure Store (α : Type) where
  array : Array α
  workspace : Array α
  /-- The counters of the latches. -/
  pending : Array UInt32
  completed : Bool := false
  log : Array Event := #[]

/-- The elements of a buffer. -/
def Store.buffer {α : Type} (s : Store α) : Buffer → Array α
  | .array => s.array
  | .workspace => s.workspace

/-- Only the root exists, and waits for one report. -/
def Store.start {α : Type} (array workspace : Array α) : Store α where
  array := array
  workspace := workspace
  pending := #[0]
  log := #[.opened (.root 0)]

/-- What a task does. -/
abbrev Access (α : Type) := Action (Store α) α Ordering

namespace Access

variable {α : Type}

/-! ## Buffers -/

/-- Copies a span of a buffer (`slice`). -/
def read (b : Buffer) (span : Span) : Access α (Array α) := fun s =>
  match span.read? (s.buffer b) with
  | some xs => .done (xs, s)
  | none => .fault .outOfBounds

theorem run_read {b : Buffer} {span : Span} {s : Store α} {xs : Array α}
    (h : span.read? (s.buffer b) = some xs) : (read b span).run s = .done (xs, s) := by
  simp only [read, StateT.run, h]

/-- Replaces a span of a buffer by as many elements (`slice_mut`). -/
def write (b : Buffer) (span : Span) (xs : List α) : Access α Unit := fun s =>
  if span.stop ≤ (s.buffer b).size ∧ xs.length = span.len then
    match b with
    | .array => .done ((), { s with array := overwrite s.array span.start xs })
    | .workspace => .done ((), { s with workspace := overwrite s.workspace span.start xs })
  else .fault .outOfBounds

theorem run_write_array {span : Span} {s : Store α} {xs : List α}
    (h : span.stop ≤ s.array.size) (hx : xs.length = span.len) :
    (write .array span xs).run s =
      .done ((), { s with array := overwrite s.array span.start xs }) := by
  unfold write
  exact if_pos ⟨h, hx⟩

theorem run_write_workspace {span : Span} {s : Store α} {xs : List α}
    (h : span.stop ≤ s.workspace.size) (hx : xs.length = span.len) :
    (write .workspace span xs).run s =
      .done ((), { s with workspace := overwrite s.workspace span.start xs }) := by
  unfold write
  exact if_pos ⟨h, hx⟩

/-! ## Latches -/

def note (e : Event) : Access α Unit := fun s => .done ((), { s with log := s.log.push e })

@[simp] theorem run_note (e : Event) (s : Store α) :
    (note e).run s = .done ((), { s with log := s.log.push e }) := rfl

/-- Makes a latch that waits for `pending` reports before the last one. -/
def openLatch (pending : UInt32) (latch : Nat → Latch) : Access α Latch := fun s =>
  .done (latch s.pending.size, { s with
    pending := s.pending.push pending
    log := s.log.push (.opened (latch s.pending.size)) })

@[simp] theorem run_openLatch (pending : UInt32) (latch : Nat → Latch) (s : Store α) :
    (openLatch pending latch).run s =
      .done (latch s.pending.size, { s with
        pending := s.pending.push pending
        log := s.log.push (.opened (latch s.pending.size)) }) := rfl

/-- Makes a latch for one part of what is reported to another (`child`). -/
def openPart (whole : Latch) : Access α Latch := openLatch 0 fun id => .part id whole

/-- Makes the latch that two reports trigger to merge (`relay`), and the one that the merge reports
to. -/
def openTrigger (merge : Merge) (whole : Latch) : Access α Latch := do
  let next ← openPart whole
  openLatch 1 fun id => .trigger id merge next

/-- Announces one more report (`add_to_pending_count`). -/
def raise (latch : Latch) : Access α Unit := fun s =>
  match s.pending[latch.id]? with
  | some p => .done ((), { s with
      pending := s.pending.setIfInBounds latch.id (p + 1)
      log := s.log.push (.raised latch) })
  | none => .fault .outOfBounds

theorem run_raise {latch : Latch} {s : Store α} {p : UInt32}
    (h : s.pending[latch.id]? = some p) :
    (raise latch).run s = .done ((), { s with
      pending := s.pending.setIfInBounds latch.id (p + 1)
      log := s.log.push (.raised latch) }) := by
  simp only [raise, StateT.run, h]

/-- Reports to a latch; tells whether this was the last report to it (`try_complete`). -/
def arrive (latch : Latch) : Access α Bool := fun s =>
  match s.pending[latch.id]? with
  | some p =>
    let (arrival, p) := Arrival.alone p
    .done (arrival == .last, { s with
      pending := s.pending.setIfInBounds latch.id p
      log := s.log.push (.arrived latch (arrival == .last)) })
  | none => .fault .outOfBounds

theorem run_arrive (latch : Latch) {s : Store α} {p : UInt32}
    (h : s.pending[latch.id]? = some p) :
    (arrive latch).run s =
      if p = 0 then .done (true, { s with
        pending := s.pending.setIfInBounds latch.id 0
        log := s.log.push (.arrived latch true) })
      else .done (false, { s with
        pending := s.pending.setIfInBounds latch.id (p - 1)
        log := s.log.push (.arrived latch false) }) := by
  by_cases hp : p = 0
  · subst hp
    simp only [arrive, StateT.run, h, Arrival.alone_zero]
    rfl
  · simp only [arrive, StateT.run, h, Arrival.alone_of_ne_zero hp, if_neg hp]
    rfl

/-- Announces the end of the sort. -/
def announce : Access α Unit := fun s =>
  .done ((), { s with completed := true, log := s.log.push .completed })

@[simp] theorem run_announce (s : Store α) :
    (announce (α := α)).run s =
      .done ((), { s with completed := true, log := s.log.push .completed }) := rfl

end Access

end ForkJoin.Sorting

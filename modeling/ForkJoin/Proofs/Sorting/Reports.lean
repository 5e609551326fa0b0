import ForkJoin.Proofs.Script
import ForkJoin.Proofs.Sorting.Frame

/-!
# What a single worker does next

A single worker that is about to report to a latch goes on with the next task, or with what hangs
on the latch. `reporting`, `merging`, `cutting` and `sorting` name what is left of a run at four
points of a task, and the equations say how each of them becomes another.
-/
namespace ForkJoin.Sorting

open Calling Work Access

variable {α : Type}

/-- Sorts a span that is cut no more. -/
def sortUncut (start len scratch : Nat) : Access α Unit := do
  let xs ← read .array ⟨start, len⟩
  let ws ← read .workspace ⟨scratch, len⟩
  let ((sorted, left) : List α × List α) ← Action.ofCalling (mergeSort xs.toList ws.toList)
  write .array ⟨start, len⟩ sorted
  write .workspace ⟨scratch, len⟩ left

section

variable (g K : Nat) (latch : Latch) (later : List Task) (s : Store α)

/-- About to report to a latch. -/
def reporting : Calling α Ordering (List Task × Store α) :=
  (Task.report g latch).run s >>= fun (left, s') => alone (Task.run g) K (left ++ later) s'

/-- About to merge, and then to report. -/
def merging (m : Merge) : Calling α Ordering (List Task × Store α) :=
  (Task.mergeHead g latch m).run s >>= fun (forked, s') => reporting g K latch (forked ++ later) s'

/-- About to cut the first `ln` and `rn` elements of two runs, which were cut before. -/
def cutting (m : Merge) (left right : Array α) (ln rn : Nat) (forked : List Task) :
    Calling α Ordering (List Task × Store α) :=
  (Task.forkTails g latch m left right ln rn forked).run s >>= fun ((ln, rn, forked), s') =>
    Sorting.merge (left.toList.take ln) (right.toList.take rn) >>= fun merged =>
      (write m.source.other (m.head ln rn).target merged).run s' >>= fun (_, s') =>
        reporting g K latch (forked ++ later) (s'.noted (.did latch (.merge (m.head ln rn))))

/-- About to sort a span, which was cut before. -/
def sorting (start len scratch : Nat) (forked : List Task) :
    Calling α Ordering (List Task × Store α) :=
  (Task.forkQuarters g latch start len scratch forked).run s >>= fun ((first, len, forked), s') =>
    (sortUncut start len scratch).run s' >>= fun (_, s') =>
      reporting g K first (forked ++ later)
        (s'.noted (.did first (.sort ⟨start, len⟩ ⟨scratch, len⟩)))

end

/-- A single worker is about to report to the latch, with `k` steps to go or more. -/
abbrev Reports {ρ : Type} (g k : Nat) (latch : Latch) (later : List Task)
    (R : ρ → Store α → Prop) (c : ρ) (x : Calling α Ordering (List Task × Store α)) : Prop :=
  ∃ K s, k ≤ K ∧ x = reporting g K latch later s ∧ R c s

variable {g K : Nat} {latch : Latch} {later : List Task} {s : Store α}

/-! ## Tasks -/

theorem alone_merge (hK : 0 < K) (m : Merge) :
    alone (Task.run g) K (.merge latch m :: later) s = merging g (K - 1) latch later s m := by
  rw [alone_cons hK, merging]
  simp only [Task.run, reporting, StateT.run_bind, StateT.run_pure, Calling.bind_bind,
    Calling.pure_eq, Calling.done_bind, List.append_assoc]

/-- A span is cut, sorted and reported. -/
theorem run_sort (span : Span) (scratch : Nat) : (Task.run g (.sort latch span scratch)).run s =
    (Task.forkQuarters g latch span.start span.len scratch []).run s >>=
      fun ((first, len, forked), s') => (sortUncut span.start len scratch).run s' >>= fun (_, s') =>
        (Task.report g first).run
            (s'.noted (.did first (.sort ⟨span.start, len⟩ ⟨scratch, len⟩))) >>=
          fun (later, s') => .done (later ++ forked, s') := by
  simp only [Task.run, Task.sortFirst, sortUncut, StateT.run_bind, StateT.run_pure, run_note,
    Calling.bind_bind, Calling.pure_eq, Calling.done_bind, Store.noted]

theorem alone_sort (hK : 0 < K) (span : Span) (scratch : Nat) :
    alone (Task.run g) K (.sort latch span scratch :: later) s =
      sorting g (K - 1) latch later s span.start span.len scratch [] := by
  rw [alone_cons hK, sorting, run_sort]
  simp only [reporting, Calling.bind_bind, Calling.done_bind, List.append_assoc]

/-- A merge reads its runs first. -/
theorem merging_eq {m : Merge} (hl : m.left.stop ≤ (s.buffer m.source).size)
    (hr : m.right.stop ≤ (s.buffer m.source).size) :
    merging g K latch later s m = cutting g K latch later s m
      ((s.buffer m.source).extract m.left.start m.left.stop)
      ((s.buffer m.source).extract m.right.start m.right.stop) m.left.len m.right.len [] := by
  rw [merging, cutting]
  simp only [Task.mergeHead, StateT.run_bind, run_read (Span.read?_of_le hl),
    run_read (Span.read?_of_le hr), StateT.run_pure, run_note, Action.run_ofCalling,
    Calling.bind_bind, Calling.pure_eq, Calling.done_bind, Store.noted]

/-! ## Cuts -/

/-- A merge whose runs are cut no more. -/
def mergeShort (g K : Nat) (latch : Latch) (later : List Task) (s : Store α) (m : Merge)
    (left right : Array α) (ln rn : Nat) : Calling α Ordering (List Task × Store α) :=
  Sorting.merge (left.toList.take ln) (right.toList.take rn) >>= fun merged =>
    (write m.source.other (m.head ln rn).target merged).run s >>= fun (_, s') =>
      reporting g K latch later (s'.noted (.did latch (.merge (m.head ln rn))))

/-- A cut is announced before what lies before it is cut in turn. -/
theorem run_forkTails {m : Merge} {left right : Array α} {ln rn : Nat} {forked : List Task}
    {p : UInt32} (hp : s.pending[latch.id]? = some p) :
    (Task.forkTails g latch m left right ln rn forked).run s =
      cut? g left right ln rn >>= fun c? =>
        match c? with
        | none => .done ((ln, rn, forked), s)
        | some c => (Task.forkTails g latch m left right c.left c.right
            (.merge (.part s.pending.size latch) (m.tail ln rn c.left c.right) :: forked)).run
              (s.cutOff latch m ln rn p) := by
  rw [Task.forkTails, StateT.run_bind, Action.run_ofCalling, Calling.bind_bind]
  congr 1
  funext c?
  cases c? with
  | none => rfl
  | some c =>
    simp only [Calling.done_bind, StateT.run_bind, run_note, openPart, run_openLatch]
    rw [run_raise (by exact hp)]
    simp only [Calling.done_bind, Array.size_setIfInBounds, Store.cutOff]

theorem cutting_eq {m : Merge} {left right : Array α} {ln rn : Nat} {forked : List Task}
    {p : UInt32} (hp : s.pending[latch.id]? = some p) :
    cutting g K latch later s m left right ln rn forked =
      cut? g left right ln rn >>= fun c? =>
        match c? with
        | none => mergeShort g K latch (forked ++ later) s m left right ln rn
        | some c => cutting g K latch later (s.cutOff latch m ln rn p) m left right c.left c.right
            (.merge (.part s.pending.size latch) (m.tail ln rn c.left c.right) :: forked) := by
  rw [cutting, run_forkTails hp, Calling.bind_bind]
  congr 1
  funext c?
  cases c? <;> rfl

/-! ## Reports -/

/-- A report that is not the last. -/
theorem run_report_early {p : UInt32} (hp : s.pending[latch.id]? = some p) (h0 : p ≠ 0) :
    (Task.report g latch).run s = .done ([], s.told latch (p - 1) false) := by
  have harrive := (run_arrive latch hp).trans (if_neg h0)
  cases latch <;>
    simp only [Task.report, StateT.run_bind, harrive, Calling.done_bind,
      if_neg Bool.false_ne_true, StateT.run_pure, Calling.pure_eq] <;> rfl

theorem reporting_early {p : UInt32} (hp : s.pending[latch.id]? = some p) (h0 : p ≠ 0) :
    reporting g K latch later s = alone (Task.run g) K later (s.told latch (p - 1) false) := by
  rw [reporting, run_report_early hp h0]
  rfl

/-- The last report to a part is passed on. -/
theorem run_report_part {id : Nat} (hp : s.pending[id]? = some 0) :
    (Task.report g (.part id latch)).run s =
      (Task.report g latch).run (s.told (.part id latch) 0 true) := by
  have harrive := (run_arrive (.part id latch) hp).trans (if_pos rfl)
  simp only [Task.report, StateT.run_bind, harrive, Calling.done_bind, if_true, Store.told]

theorem reporting_part {id : Nat} (hp : s.pending[id]? = some 0) :
    reporting g K (.part id latch) later s =
      reporting g K latch later (s.told (.part id latch) 0 true) := by
  rw [reporting, run_report_part hp, reporting]

/-- The last report to a trigger has its merge done, as by a task. -/
theorem run_report_trigger {id : Nat} {m : Merge} (hp : s.pending[id]? = some 0) :
    (Task.report g (.trigger id m latch)).run s =
      (Task.run g (.merge latch m)).run (s.told (.trigger id m latch) 0 true) := by
  have harrive := (run_arrive (.trigger id m latch) hp).trans (if_pos rfl)
  simp only [Task.report, Task.run, StateT.run_bind, harrive, Calling.done_bind, if_true, Store.told,
    StateT.run_pure, Calling.pure_eq]

theorem reporting_trigger {id : Nat} {m : Merge} (hp : s.pending[id]? = some 0) :
    reporting g K (.trigger id m latch) later s =
      merging g K latch later (s.told (.trigger id m latch) 0 true) m := by
  rw [reporting, run_report_trigger hp]
  simp only [reporting, merging, Task.run, StateT.run_bind, StateT.run_pure, Calling.pure_eq,
    Calling.bind_bind, Calling.done_bind, List.append_assoc]

/-- The last report to the root ends the sort. -/
theorem run_report_root {id : Nat} (hp : s.pending[id]? = some 0) :
    (Task.report g (.root id)).run s =
      .done ([], { (s.told (.root id) 0 true).noted .completed with completed := true }) := by
  have harrive := (run_arrive (.root id) hp).trans (if_pos rfl)
  simp only [Task.report, StateT.run_bind, harrive, Calling.done_bind, if_true, run_announce,
    StateT.run_pure, Calling.pure_eq]
  rfl

theorem reporting_root {id : Nat} (hp : s.pending[id]? = some 0) :
    reporting g K (.root id) later s = alone (Task.run g) K later
      { (s.told (.root id) 0 true).noted .completed with completed := true } := by
  rw [reporting, run_report_root hp]
  rfl

end ForkJoin.Sorting

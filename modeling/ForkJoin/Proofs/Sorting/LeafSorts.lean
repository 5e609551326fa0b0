import Mathlib.Algebra.BigOperators.Group.Multiset.Basic
import ForkJoin.Proofs.Sorting.AnyPolicy
import ForkJoin.Proofs.Sorting.LeafSpans

/-!
# Who sorts what

Each task of a sort owes some leaves: those of its span, or none if it merges. It sorts one of them
itself and forks tasks that owe the others, and whatever its report triggers only merges. So at any
time the leaves that were sorted and those that the live tasks owe are together the leaves of the whole
array, under every policy, and in the end each leaf has been sorted once.
-/
namespace ForkJoin.Sorting

open Calling

variable {α γ δ : Type} {cmp : α → α → Ordering} {g : Nat} {hg : 0 < g}

/-! ## Accounts -/

/-- The spans that were sorted by one worker, and those of the workspace that were used for it. -/
def sortings (log : List Event) : List (Span × Span) :=
  log.filterMap fun
    | .did _ (.sort span scratch) => some (span, scratch)
    | _ => none

/-- If the action returns, then of the leaves that were owed some have been sorted and the rest is
still owed. -/
def Settles (cmp : α → α → Ordering) (owed : Multiset (Span × Span)) (x : Access α γ)
    (left : γ → Multiset (Span × Span)) : Prop :=
  ∀ s c s' made, Returns cmp (x.run s) (c, s') made →
    (sortings s'.log.toList : Multiset (Span × Span)) + left c =
      (sortings s.log.toList : Multiset (Span × Span)) + owed

namespace Settles

variable {owed more : Multiset (Span × Span)} {x : Access α γ} {left : γ → Multiset (Span × Span)}

theorem pure {c : γ} (h : left c = owed) : Settles cmp owed (Pure.pure c) left := by
  rintro s _ _ _ ⟨⟩
  rw [h]

theorem bind {mid : γ → Multiset (Span × Span)} {k : γ → Access α δ}
    {left : δ → Multiset (Span × Span)} (h : Settles cmp owed x mid)
    (hk : ∀ c, Settles cmp (mid c) (k c) left) : Settles cmp owed (x >>= k) left := by
  intro s d s' made hreturns
  rw [StateT.run_bind] at hreturns
  obtain ⟨⟨c, s₁⟩, before, after, hx, hafter, rfl⟩ := hreturns.of_bind
  exact (hk c s₁ d s' after hafter).trans (h s c s₁ before hx)

theorem fail (why : Fault) : Settles cmp owed (Action.fail why) left := by
  rintro s c s' made ⟨⟩

theorem of_eq (h : Settles cmp owed x left) (howed : owed = more) : Settles cmp more x left :=
  howed ▸ h

/-- There may be other accounts, which stay as they are. -/
theorem frame (h : Settles cmp owed x left) (more : Multiset (Span × Span)) :
    Settles cmp (owed + more) x fun c => left c + more := by
  intro s c s' made hreturns
  rw [← Multiset.add_assoc, ← Multiset.add_assoc, h s c s' made hreturns]

theorem frame_zero (h : Settles cmp 0 x left) (more : Multiset (Span × Span)) :
    Settles cmp more x fun c => left c + more :=
  (h.frame more).of_eq (Multiset.zero_add more)

/-- What sorts nothing settles nothing. -/
theorem of_log (h : ∀ s c s' made, Returns cmp (x.run s) (c, s') made →
    sortings s'.log.toList = sortings s.log.toList) : Settles cmp owed x fun _ => owed := by
  intro s c s' made hreturns
  rw [h s c s' made hreturns]

end Settles

theorem sortings_push (log : Array Event) (e : Event) :
    sortings (log.push e).toList = sortings log.toList ++ sortings [e] := by
  rw [Array.toList_push]
  exact List.filterMap_append

namespace Access

variable {owed : Multiset (Span × Span)}

theorem settles_ofCalling (x : Calling α Ordering γ) :
    Settles cmp owed (Action.ofCalling x) fun _ => owed := by
  refine .of_log fun s c s' made h => ?_
  rw [Action.run_ofCalling] at h
  obtain ⟨c', before, after, -, hafter, -⟩ := h.of_bind
  cases hafter
  rfl

theorem settles_read (b : Buffer) (span : Span) :
    Settles cmp owed (read b span) fun _ => owed := by
  refine .of_log fun s c s' made h => ?_
  simp only [read, StateT.run] at h
  split at h
  · cases h
    rfl
  · cases h

theorem settles_write (b : Buffer) (span : Span) (xs : List α) :
    Settles cmp owed (write b span xs) fun _ => owed := by
  refine .of_log fun s c s' made h => ?_
  simp only [write, StateT.run] at h
  split at h
  · cases b <;> cases h <;> rfl
  · cases h

theorem settles_note {e : Event} (he : sortings [e] = []) :
    Settles cmp owed (note e) fun _ => owed := by
  refine .of_log fun s c s' made h => ?_
  cases h
  rw [sortings_push, he, List.append_nil]

/-- A leaf is settled by sorting it. -/
theorem settles_note_sort (latch : Latch) (span scratch : Span) :
    Settles cmp ({(span, scratch)} + owed) (note (.did latch (.sort span scratch)))
      fun _ => owed := by
  rintro s _ _ _ ⟨⟩
  rw [sortings_push, ← Multiset.coe_add, Multiset.add_assoc]
  rfl

theorem settles_openLatch (pending : UInt32) (latch : Nat → Latch) :
    Settles cmp owed (openLatch pending latch) fun _ => owed := by
  refine .of_log fun s c s' made h => ?_
  cases h
  rw [sortings_push]
  exact List.append_nil _

theorem settles_openPart (whole : Latch) : Settles cmp owed (openPart whole) fun _ => owed :=
  settles_openLatch 0 _

theorem settles_openTrigger (merge : Merge) (whole : Latch) :
    Settles cmp owed (openTrigger merge whole) fun _ => owed :=
  (settles_openPart whole).bind fun _ => settles_openLatch 1 _

theorem settles_raise (latch : Latch) : Settles cmp owed (raise latch) fun _ => owed := by
  refine .of_log fun s c s' made h => ?_
  simp only [raise, StateT.run] at h
  split at h
  · cases h
    rw [sortings_push]
    exact List.append_nil _
  · cases h

theorem settles_arrive (latch : Latch) : Settles cmp owed (arrive latch) fun _ => owed := by
  refine .of_log fun s c s' made h => ?_
  simp only [arrive, StateT.run] at h
  split at h
  · cases h
    rw [sortings_push]
    exact List.append_nil _
  · cases h

theorem settles_announce : Settles cmp owed announce fun _ => owed := by
  refine .of_log fun s c s' made h => ?_
  cases h
  rw [sortings_push]
  exact List.append_nil _

end Access

/-! ## Tasks -/

/-- The leaves that a task owes. -/
def Task.owes (g : Nat) (hg : 0 < g) : Task → List (Span × Span)
  | sort _ span scratch => leafJobs g hg span.start scratch span.len
  | merge _ _ => []

/-- The leaves that some tasks owe. -/
def owing (g : Nat) (hg : 0 < g) (tasks : List Task) : Multiset (Span × Span) :=
  (tasks.flatMap (Task.owes g hg) : List (Span × Span))

@[simp] theorem owing_nil : owing g hg [] = 0 := rfl

@[simp] theorem owing_cons (task : Task) (tasks : List Task) :
    owing g hg (task :: tasks) = (task.owes g hg : Multiset (Span × Span)) + owing g hg tasks :=
  rfl

@[simp] theorem owing_append (tasks tasks' : List Task) :
    owing g hg (tasks ++ tasks') = owing g hg tasks + owing g hg tasks' := by
  rw [owing, List.flatMap_append]
  rfl

namespace Task

variable (g : Nat) (hg : 0 < g)

theorem settles_forkTails (latch : Latch) (m : Merge) (left right : Array α) (ln rn : Nat)
    (forked : List Task) :
    Settles cmp (owing g hg forked) (forkTails g latch m left right ln rn forked)
      fun out => owing g hg out.2.2 := by
  induction hlen : ln + rn using Nat.strongRecOn generalizing ln rn forked with
  | ind len ih =>
    rw [forkTails]
    refine (Access.settles_ofCalling _).bind ?_
    rintro (_ | c)
    · exact .pure rfl
    · refine (Access.settles_note rfl).bind fun _ => ?_
      refine (Access.settles_raise latch).bind fun _ => ?_
      refine (Access.settles_openPart latch).bind fun part => ?_
      have hrest := ih _ (by have := c.shrinks; omega) c.left c.right
        (merge part (m.tail ln rn c.left c.right) :: forked) rfl
      rwa [owing_cons, owes, Multiset.coe_nil, Multiset.zero_add] at hrest

/-- A merge sorts nothing, and forks merges only. -/
theorem settles_mergeHead (latch : Latch) (m : Merge) :
    Settles (α := α) cmp 0 (mergeHead g latch m) (owing g hg) := by
  rw [mergeHead]
  refine (Access.settles_read _ _).bind fun left => ?_
  refine (Access.settles_read _ _).bind fun right => ?_
  refine (settles_forkTails g hg latch m left right _ _ []).bind fun out => ?_
  refine (Access.settles_ofCalling _).bind fun merged => ?_
  refine (Access.settles_write _ _ _).bind fun _ => ?_
  refine (Access.settles_note rfl).bind fun _ => ?_
  exact .pure rfl

/-- A report sorts nothing, whatever it triggers, and forks merges only. -/
theorem settles_report (latch : Latch) :
    Settles (α := α) cmp 0 (report g latch) (owing g hg) := by
  induction latch with
  | root id =>
    rw [report]
    refine (Access.settles_arrive _).bind fun last => ?_
    cases last with
    | true => exact Access.settles_announce.bind fun _ => .pure rfl
    | false => exact .pure rfl
  | part id whole ih =>
    rw [report]
    refine (Access.settles_arrive _).bind fun last => ?_
    cases last with
    | true => exact ih
    | false => exact .pure rfl
  | trigger id m next ih =>
    rw [report]
    refine (Access.settles_arrive _).bind fun last => ?_
    cases last with
    | true =>
      refine (settles_mergeHead g hg next m).bind fun forked => ?_
      exact (ih.frame_zero (owing g hg forked)).bind fun later => .pure (owing_append later forked)
    | false => exact .pure rfl

/-- Three quarters are owed by the tasks that are forked, and the lowest one is gone on with. -/
theorem settles_forkQuarters (latch : Latch) (start len scratch : Nat) (forked : List Task) :
    Settles (α := α) cmp
      ((leafJobs g hg start scratch len : Multiset (Span × Span)) + owing g hg forked)
      (forkQuarters g latch start len scratch forked)
      fun out => {(⟨start, out.2.1⟩, ⟨scratch, out.2.1⟩)} + owing g hg out.2.2 := by
  induction len using Nat.strongRecOn generalizing latch forked with
  | ind len ih =>
    rw [forkQuarters, leafJobs]
    by_cases hlong : g < len
    · rw [if_pos hlong, if_pos hlong]
      refine (Access.settles_openTrigger _ _).bind fun back => ?_
      refine (Access.settles_openTrigger _ _).bind fun upper => ?_
      refine (Access.settles_openPart _).bind fun fourth => ?_
      refine (Access.settles_openPart _).bind fun third => ?_
      refine (Access.settles_openTrigger _ _).bind fun lower => ?_
      refine (Access.settles_openPart _).bind fun second => ?_
      refine (Access.settles_openPart _).bind fun first => ?_
      -- the three tasks owe their quarters, and the loop goes on with the lowest one
      have hrest := ih (len / 2 / 2) (by omega) first
        (sort second ⟨start + len / 2 / 2, len / 2 - len / 2 / 2⟩ (scratch + len / 2 / 2) ::
          sort third ⟨start + len / 2, len / 2 / 2⟩ (scratch + len / 2) ::
          sort fourth ⟨start + (len / 2 + len / 2 / 2), len - (len / 2 + len / 2 / 2)⟩
            (scratch + (len / 2 + len / 2 / 2)) :: forked)
      simp only [owing_cons, owes, ← Multiset.add_assoc, Multiset.coe_add] at hrest
      simp only [List.append_assoc]
      exact hrest
    · rw [if_neg hlong, if_neg hlong]
      exact .pure rfl

theorem settles_sortFirst (latch : Latch) (span : Span) (scratch : Nat) :
    Settles (α := α) cmp (leafJobs g hg span.start scratch span.len : Multiset (Span × Span))
      (sortFirst g latch span scratch) fun out => owing g hg out.2 := by
  rw [sortFirst]
  refine ((settles_forkQuarters g hg latch span.start span.len scratch []).of_eq
    (Multiset.add_zero _)).bind fun out => ?_
  refine (Access.settles_read _ _).bind fun xs => ?_
  refine (Access.settles_read _ _).bind fun ws => ?_
  refine (Access.settles_ofCalling _).bind fun sorted => ?_
  refine (Access.settles_write _ _ _).bind fun _ => ?_
  refine (Access.settles_write _ _ _).bind fun _ => ?_
  refine (Access.settles_note_sort _ _ _).bind fun _ => ?_
  exact .pure rfl

/-- **A task sorts a leaf that it owes**, and forks tasks that owe the others. -/
theorem settles_run (task : Task) :
    Settles (α := α) cmp (task.owes g hg : Multiset (Span × Span)) (run g task) (owing g hg) := by
  cases task with
  | sort latch span scratch =>
    refine (settles_sortFirst g hg latch span scratch).bind fun out => ?_
    exact ((settles_report g hg out.1).frame_zero (owing g hg out.2)).bind fun later =>
      .pure (owing_append later out.2)
  | merge latch m =>
    refine (settles_mergeHead g hg latch m).bind fun forked => ?_
    exact ((settles_report g hg latch).frame_zero (owing g hg forked)).bind fun later =>
      .pure (owing_append later forked)

end Task

/-! ## Runs -/

/-- **At any time the leaves that were sorted and those that are owed are all leaves**, under every
policy. -/
theorem settles_steps (g : Nat) (hg : 0 < g) (policy : Policy) (k : Nat) (pool : List Task) :
    Settles (α := α) cmp (owing g hg pool) (Work.steps (Task.run g) policy k pool)
      (owing g hg) := by
  induction k generalizing pool with
  | zero => exact .pure rfl
  | succ k ih =>
    have hsplit := List.take_append_drop (policy k % pool.length) pool
    rw [Work.steps]
    cases hdrop : pool.drop (policy k % pool.length) with
    | nil => exact .pure (by rw [Work.eq_nil_of_drop_mod hdrop])
    | cons task later =>
      rw [hdrop] at hsplit
      have howing : owing g hg pool = (task.owes g hg : Multiset (Span × Span)) +
          owing g hg (pool.take (policy k % pool.length) ++ later) := by
        rw [owing_append, add_left_comm, ← owing_cons, ← owing_append, hsplit]
      rw [howing]
      refine ((Task.settles_run g hg task).frame _).bind fun left => ?_
      refine (ih _).of_eq ?_
      simp only [owing_append]
      exact add_left_comm _ _ _

/-- **A sort that ends has sorted every leaf once.** -/
theorem settles_runTasks (g : Nat) (hg : 0 < g) (policy : Policy) (len : Nat) :
    Settles (α := α) cmp (leafJobs g hg 0 0 len : Multiset (Span × Span)) (runTasks g policy len)
      fun _ => 0 := by
  have hdrain : Settles (α := α) cmp (leafJobs g hg 0 0 len : Multiset (Span × Span))
      (Work.drain (Task.run g) policy (budget len) (.sort (.root 0) ⟨0, len⟩ 0)) fun _ => 0 := by
    have howes : owing g hg [.sort (.root 0) ⟨0, len⟩ 0] = leafJobs g hg 0 0 len := by
      rw [owing_cons, owing_nil, Multiset.add_zero, Task.owes]
    refine ((settles_steps g hg policy _ _).of_eq howes).bind fun pool => ?_
    cases pool with
    | nil => exact .pure rfl
    | cons task later => exact .fail .unfinished
  refine hdrain.bind fun _ => ?_
  intro s c s' made h
  simp only [StateT.run_bind, StateT.run_get, Calling.pure_eq, Calling.done_bind] at h
  split at h
  · cases h
    rfl
  · cases h

/-! ## The leaves of a sort -/

/-- **A sort that is cut is cut in few leaves of bounded size, and each of them is sorted once.** They
lie one behind the other from the first position of the array to the last. Every sort comes to its end,
whatever the comparator and in whichever order its tasks are run, and what is sorted by one worker then
is each leaf, with the same span of the workspace. -/
theorem sort_quartered (tuning : Tuning) {n g : Nat} (hn : n < 2 ^ 64)
    (h : tuning.sortGranularity? n = some g) :
    1 ≤ g ∧ g < n ∧ ∃ leaves : List Span, Quartered g n leaves ∧
      (2 ≤ g → leaves.length < 16 * tuning.parallelism.val) ∧
      ∀ (α ε : Type) (cmp : α → α → Ordering) (xs ws : Array α), xs.size = n → ws.size = n →
        ∀ policy : Policy, ∃ s calls,
          ((runTasks g policy n).run (Store.start xs ws)).run
            (fun a b => (.ok (cmp a b) : Except ε Ordering)) = .ok ⟨((), s), calls⟩ ∧
          (sortings s.log.toList).Perm (leaves.map fun l => (l, l)) := by
  have hg := Tuning.sortGranularity?_pos h
  have hcut := Tuning.sortGranularity?_lt h
  refine ⟨hg, hcut, _, quartered_leaves hg hcut, length_leaves_lt hg h, ?_⟩
  rintro α ε cmp xs ws rfl hws policy
  obtain ⟨ys, calls, hys, -⟩ := (sortQuarters_perm hg xs.toList).returns (f := cmp)
    fun _ _ _ => trivial
  obtain ⟨s, T, K, waiting, duties, made, hreturns, -⟩ :=
    exists_end (ι := Unit) hn (fun _ => hws) hys policy
  refine ⟨s.holding (T ()), made.toArray, (hreturns ()).run, ?_⟩
  have hsettled := settles_runTasks g hg policy xs.size _ _ _ _ (hreturns ())
  rw [Multiset.add_zero] at hsettled
  rw [map_leaves]
  exact Multiset.coe_eq_coe.1 (hsettled.trans (Multiset.zero_add _))

/-- Eleven elements are cut in quarters of 2, 3, 2 and 4 elements, and two of these once more. -/
theorem sort_quartered_eleven : 11 < 2 ^ 64 ∧
    Tuning.sortGranularity? ⟨{ val := 2 }, { val := 1 }, { val := 2 }⟩ 11 = some 2 ∧
    ∃ leaves : List Span, Quartered 2 11 leaves ∧ leaves.length < 32 ∧
      ∀ (α ε : Type) (cmp : α → α → Ordering) (xs ws : Array α), xs.size = 11 → ws.size = 11 →
        ∀ policy : Policy, ∃ s calls,
          ((runTasks 2 policy 11).run (Store.start xs ws)).run
            (fun a b => (.ok (cmp a b) : Except ε Ordering)) = .ok ⟨((), s), calls⟩ ∧
          (sortings s.log.toList).Perm (leaves.map fun l => (l, l)) := by
  have hg : Tuning.sortGranularity? ⟨{ val := 2 }, { val := 1 }, { val := 2 }⟩ 11 = some 2 := by
    decide
  have hn : 11 < 2 ^ 64 := by decide
  obtain ⟨-, -, leaves, hleaves, hfew, hruns⟩ :=
    sort_quartered ⟨{ val := 2 }, { val := 1 }, { val := 2 }⟩ hn hg
  exact ⟨hn, hg, leaves, hleaves, hfew (Nat.le_refl 2), hruns⟩

end ForkJoin.Sorting

import ForkJoin.Proofs.Sorting.Closing

/-!
# What a task does

A task finds the sort in progress, does its part and leaves the sort in progress, with the tasks
that it has forked. So does each piece of it: the latches that it makes, the cuts, the sort or the
merge of what is left, and the report with all that hangs on that.

What is in the buffers where nothing was written yet is left open, so the sort is in progress in a
whole family of states at once. They differ in their elements only, and each piece of the task does
the same in all of them.
-/
namespace ForkJoin.Sorting

open Calling Access Latch

variable {α : Type}

/-! ## Elements -/

namespace Store

variable {s : Store α} {b : Buffer} {span : Span} {xs : List α} {a i : Nat} {v : α}

/-- What is expected on a span is what is there. -/
theorem segment_of_lays (h : span.stop ≤ (s.buffer b).size) (hlen : xs.length = span.len)
    (hxs : ∀ i v, Lays span.start xs i v → (s.buffer b)[i]? = some v) : s.segment b span = xs := by
  obtain ⟨a, n⟩ := span
  have hn : xs.length = n := hlen
  refine List.ext_getElem? fun i => ?_
  rw [getElem?_segment h]
  by_cases hi : i < n
  · have hx := List.getElem?_eq_getElem (l := xs) (i := i) (by omega)
    rw [if_pos hi, hx]
    exact hxs (a + i) _ ⟨Nat.le_add_right a i, by rw [Nat.add_sub_cancel_left, hx]⟩
  · rw [if_neg hi, List.getElem?_eq_none (by omega)]

/-- What was written is there. -/
theorem getElem?_put (h : a + xs.length ≤ (s.buffer b).size) (hv : Lays a xs i v) :
    ((s.put b a xs).buffer b)[i]? = some v := by
  have hlt := hv.lt
  have hle := hv.1
  have hget := hv.2
  rw [← segment_put s b rfl h, getElem?_segment (by rwa [buffer_put_self, size_overwrite]),
    if_pos (by omega), Nat.add_sub_cancel' hle] at hget
  exact hget

theorem pending_put (s : Store α) (b : Buffer) (i : Nat) (xs : List α) :
    (s.put b i xs).pending = s.pending := by
  cases b <;> rfl

theorem log_put (s : Store α) (b : Buffer) (i : Nat) (xs : List α) :
    (s.put b i xs).log = s.log := by
  cases b <;> rfl

theorem size_put (s : Store α) (b : Buffer) (i : Nat) (xs : List α) (b' : Buffer) :
    ((s.put b i xs).buffer b').size = (s.buffer b').size := by
  have hframe : Frame (fun _ _ => True) s (s.put b i xs) := .put b xs fun _ _ _ => trivial
  exact hframe.size b'

theorem buffer_noted (s : Store α) (e : Event) : (s.noted e).buffer = s.buffer := by
  funext b
  cases b <;> rfl

/-- The counters and the log of one state, with the elements of another. -/
def holding (s t : Store α) : Store α :=
  { s with
    array := t.array
    workspace := t.workspace }

theorem put_holding (s t : Store α) (b : Buffer) (i : Nat) (xs : List α) :
    (s.holding t).put b i xs = s.holding (t.put b i xs) := by
  cases b <;> rfl

end Store

section

variable {d : Duty α} {s : Store α} {m : Merge} {left : List α} {start len scratch : Nat}

/-- A span has been sorted. -/
theorem Duty.done_sort (hplan : d.plan = .sort start len scratch) (hout : d.out.length = len)
    (hleft : left.length = len) (hfits : SortFits start scratch len s) :
    d.Done s.buffer ((s.put .array start d.out).put .workspace scratch left).buffer where
  gives b i v hv := by
    rw [gives, hplan] at hv
    obtain ⟨rfl, hv⟩ := hv
    exact Store.getElem?_put (b := .array) (by rw [hout]; exact hfits.array) hv
  frame b i hi := by
    rw [deed, hplan] at hi
    have frame₁ : Store.Frame (sortTouches start scratch len) s (s.put .array start d.out) :=
      .put _ _ fun j hj hj' => ⟨hj, by rwa [hout] at hj'⟩
    have frame₂ : Store.Frame (sortTouches start scratch len) (s.put .array start d.out)
        ((s.put .array start d.out).put .workspace scratch left) :=
      .put _ _ fun j hj hj' => ⟨hj, by rwa [hleft] at hj'⟩
    refine (frame₁.trans frame₂).cells b i fun htouched => hi ?_
    cases b <;> exact htouched

/-- Two runs have been merged. -/
theorem Duty.done_merge (hplan : d.plan = .merge m) (hout : d.out.length = m.target.len)
    (ht : m.target.stop ≤ (s.buffer m.source.other).size) :
    d.Done s.buffer (s.put m.source.other m.dest d.out).buffer where
  gives b i v hv := by
    rw [gives, hplan] at hv
    obtain ⟨rfl, hv⟩ := hv
    exact Store.getElem?_put (by rw [hout]; exact ht) hv
  frame b i hi := by
    rw [deed, hplan] at hi
    have frame₁ : Store.Frame m.touches s (s.put m.source.other m.dest d.out) :=
      .put _ _ fun j hj hj' => ⟨rfl, hj, by rwa [hout] at hj'⟩
    exact frame₁.cells b i hi

end

theorem Plan.within_runs {plan : Plan} {n : Nat} (h : plan.job.Within n) :
    plan.left.stop ≤ n ∧ plan.right.stop ≤ n := by
  cases plan <;> simp only [job, Job.Within, left, right, Span.stop] at h ⊢ <;> omega

/-! ## A sort in progress -/

/-- What a task begins with. -/
def Task.walker : Task → Walker
  | .sort latch span scratch => .work latch (.sort span.start span.len scratch)
  | .merge latch m => .work latch (.merge m)

/-- The state is sound, with some who have something to do, whichever of a family of elements is in
its buffers. -/
def InProgress {ι : Type} (g : Nat) (hg : 0 < g) (cmp : α → α → Ordering) (ys : List α)
    (all : Multiset (α × α)) (K : Nat) (walkers : Multiset Walker) (s : Store α)
    (S : ι → Store α) (calls : List (α × α)) : Prop :=
  ∃ waiting duties, ∀ j, Sound g hg cmp ys all K walkers waiting duties (s.holding (S j)) calls

/-- The action returns, and the sort is in progress with what it has forked. -/
def GoesOn {ι : Type} (g : Nat) (hg : 0 < g) (cmp : α → α → Ordering) (ys : List α)
    (all : Multiset (α × α)) (K : Nat) (x : Access α (List Task)) (walkers : Multiset Walker)
    (s : Store α) (S : ι → Store α) (calls : List (α × α)) : Prop :=
  ∃ forked s' S' made,
    (∀ j, Returns cmp (x.run (s.holding (S j))) (forked, s'.holding (S' j)) made) ∧
      InProgress g hg cmp ys all K ((forked.map Task.walker : List Walker) + walkers) s' S'
        (calls ++ made)

variable {ι : Type} {g : Nat} {hg : 0 < g} {cmp : α → α → Ordering} {ys : List α}
  {all : Multiset (α × α)} {K : Nat} {walkers : Multiset Walker} {waiting : Multiset Latch}
  {duties : Multiset (Duty α)} {s : Store α} {S : ι → Store α} {calls : List (α × α)} {d : Duty α}
  {X : Latch} {w w' w'' : Walker} {plan : Plan} {m : Merge} {start len scratch p r : Nat}

namespace Sound

section

variable (h : Sound g hg cmp ys all K (.work d.latch d.plan ::ₘ walkers) waiting (d ::ₘ duties) s
  calls)

include h

theorem valid : d.Valid g hg cmp := h.assigned.valid d (Multiset.mem_cons_self _ _)

/-- The elements that are to be sorted or merged are there. -/
theorem segment_left : s.segment d.plan.source d.plan.left = d.left := by
  refine Store.segment_of_lays ?_ h.valid.left fun i v hv => h.takes_here ⟨rfl, .inl hv⟩
  rw [h.size]
  exact (Plan.within_runs h.within).1

theorem segment_right : s.segment d.plan.source d.plan.right = d.right := by
  refine Store.segment_of_lays ?_ h.valid.right fun i v hv => h.takes_here ⟨rfl, .inr hv⟩
  rw [h.size]
  exact (Plan.within_runs h.within).2

end

end Sound

theorem run_openTrigger (m : Merge) (X : Latch) (s : Store α) : (openTrigger m X).run s =
    .done (triggerAt s.pending.size m X,
      (s.made 0 (.part s.pending.size X)).made 1 (triggerAt s.pending.size m X)) := by
  simp only [openTrigger, openPart, StateT.run_bind, run_openLatch, Calling.done_bind, Store.made,
    Array.size_push, triggerAt]

/-- A long span is cut in quarters: the latches, and what is forked. -/
theorem forkQuarters_eq {latch : Latch} {forked : List Task} (hlong : g < len) :
    Task.forkQuarters g latch start len scratch forked = (do
      let back ← openTrigger (halvesMerge start scratch (len / 2) (len - len / 2)) latch
      let upper ← openTrigger (pairMerge (start + len / 2) (scratch + len / 2) (len / 2 / 2)
        (len - len / 2 - len / 2 / 2)) back
      let fourth ← openPart upper
      let third ← openPart upper
      let lower ← openTrigger (pairMerge start scratch (len / 2 / 2) (len / 2 - len / 2 / 2)) back
      let second ← openPart lower
      let first ← openPart lower
      Task.forkQuarters (α := α) g first start (len / 2 / 2) scratch
        (.sort second ⟨start + len / 2 / 2, len / 2 - len / 2 / 2⟩ (scratch + len / 2 / 2) ::
          .sort third ⟨start + len / 2, len / 2 / 2⟩ (scratch + len / 2) ::
          .sort fourth ⟨start + len / 2 + len / 2 / 2, len - len / 2 - len / 2 / 2⟩
            (scratch + len / 2 + len / 2 / 2) :: forked)) := by
  rw [Task.forkQuarters, if_pos hlong]
  simp only [halvesMerge, pairMerge, ← Nat.add_assoc, ← Nat.sub_sub]

namespace InProgress

theorem swap (h : InProgress g hg cmp ys all K (w ::ₘ w' ::ₘ walkers) s S calls) :
    InProgress g hg cmp ys all K (w' ::ₘ w ::ₘ walkers) s S calls := by
  rwa [Multiset.cons_swap]

theorem rotate (h : InProgress g hg cmp ys all K (w ::ₘ w' ::ₘ w'' ::ₘ walkers) s S calls) :
    InProgress g hg cmp ys all K (w'' ::ₘ w ::ₘ w' ::ₘ walkers) s S calls := by
  rwa [Multiset.cons_swap w'', Multiset.cons_swap w'']

theorem size (h : InProgress g hg cmp ys all K walkers s S calls) (j : ι) (b : Buffer) :
    ((s.holding (S j)).buffer b).size = ys.length := by
  obtain ⟨_, _, h⟩ := h
  exact (h j).size b

/-- What is to be sorted comes apart into two, which trigger a merge. -/
theorem branch {d₁ d₂ e : Duty α} (hb : Branch g hg cmp d d₁ d₂ e m)
    (hcost : d₁.plan.forks g hg + d₂.plan.forks g hg + (m.left.len + m.right.len - 1) + 1 ≤
      d.plan.forks g hg)
    (h : ∀ j, Sound g hg cmp ys all K (.work d.latch d.plan ::ₘ walkers) waiting (d ::ₘ duties)
      (s.holding (S j)) calls) :
    ∃ T s', (∀ j, (openTrigger m d.latch).run (s.holding (S j)) = .done (T, s'.holding (S j))) ∧
      InProgress g hg cmp ys all K (.work T d₁.plan ::ₘ .work T d₂.plan ::ₘ walkers) s' S calls :=
  ⟨triggerAt s.pending.size m d.latch,
    (s.made 0 (.part s.pending.size d.latch)).made 1 (triggerAt s.pending.size m d.latch),
    fun _ => run_openTrigger _ _ _,
    triggerAt s.pending.size m d.latch ::ₘ .part s.pending.size d.latch ::ₘ waiting,
    branches s.pending.size d d₁ d₂ e m + duties, fun j => (h j).branch hb hcost⟩

/-- What another action does from another state of the counters and the log, this one does. -/
theorem goesOn_of_run {s' : Store α} {x y : Access α (List Task)}
    (h : GoesOn g hg cmp ys all K y walkers s' S calls)
    (hrun : ∀ j, x.run (s.holding (S j)) = y.run (s'.holding (S j))) :
    GoesOn g hg cmp ys all K x walkers s S calls := by
  obtain ⟨forked, s'', S'', made, hreturns, h'⟩ := h
  exact ⟨forked, s'', S'', made, fun j => hrun j ▸ hreturns j, h'⟩

/-! ## Who is there -/

variable [Inhabited ι]

/-- Who carries out a plan has a duty. -/
theorem exists_duty (h : InProgress g hg cmp ys all K (.work X plan ::ₘ walkers) s S calls) :
    ∃ waiting duties d, d.latch = X ∧ d.plan = plan ∧ ∀ j,
      Sound g hg cmp ys all K (.work d.latch d.plan ::ₘ walkers) waiting (d ::ₘ duties)
        (s.holding (S j)) calls := by
  obtain ⟨waiting, duties, h⟩ := h
  obtain ⟨d, rest, rfl, rfl, rfl⟩ := (h default).exists_duty
  exact ⟨waiting, rest, d, rfl, rfl, h⟩

theorem within (h : InProgress g hg cmp ys all K (.work X plan ::ₘ walkers) s S calls) :
    plan.job.Within ys.length := by
  obtain ⟨_, _, d, rfl, rfl, hsound⟩ := h.exists_duty
  exact (hsound default).within

theorem exists_pending (h : InProgress g hg cmp ys all K (w ::ₘ walkers) s S calls) :
    ∃ p, s.pending[w.latch.id]? = some p := by
  obtain ⟨_, _, h⟩ := h
  have hwaiting : w.latch ∈ _ := (h default).balanced.walking_waiting <| by
    rw [Multiset.map_cons]
    exact Multiset.mem_cons_self _ _
  obtain ⟨p, hp, _⟩ := (h default).balanced.counts _ hwaiting
  exact ⟨p, hp⟩

/-- The runs that are to be merged are known. -/
theorem exists_runs (h : InProgress g hg cmp ys all K (.work X (.merge m) ::ₘ walkers) s S calls) :
    ∃ left right : List α, ∀ j, (s.holding (S j)).segment m.source m.left = left ∧
      (s.holding (S j)).segment m.source m.right = right := by
  obtain ⟨_, _, d, rfl, hplan, h⟩ := h.exists_duty
  refine ⟨d.left, d.right, fun j => ?_⟩
  have hleft := (h j).segment_left
  have hright := (h j).segment_right
  rw [hplan] at hleft hright
  exact ⟨hleft, hright⟩

/-! ## Latches -/

/-- A part of what is to be sorted is reported to a new latch. -/
theorem part (h : InProgress g hg cmp ys all K (.work X (.sort start len scratch) ::ₘ walkers) s S
      calls) : ∃ Y s', (∀ j, (openPart X).run (s.holding (S j)) = .done (Y, s'.holding (S j))) ∧
    InProgress g hg cmp ys all K (.work Y (.sort start len scratch) ::ₘ walkers) s' S calls := by
  obtain ⟨waiting, duties, d, rfl, hplan, h⟩ := h.exists_duty
  refine ⟨.part s.pending.size d.latch, s.made 0 (.part s.pending.size d.latch), fun _ => rfl,
    .part s.pending.size d.latch ::ₘ waiting, d.to (.part s.pending.size d.latch) ::ₘ duties,
    fun j => ?_⟩
  have hpart := (h j).open_part (by rw [hplan]; exact id)
  rw [hplan] at hpart
  exact hpart

/-- The sort of a long span comes apart into its halves. -/
theorem halves (h : InProgress g hg cmp ys all K (.work X (.sort start len scratch) ::ₘ walkers) s S
      calls) (hlong : g < len) : ∃ T s',
    (∀ j, (openTrigger (halvesMerge start scratch (len / 2) (len - len / 2)) X).run
      (s.holding (S j)) = .done (T, s'.holding (S j))) ∧
    InProgress g hg cmp ys all K
      (.work T (.pair start scratch (len / 2 / 2) (len / 2 - len / 2 / 2)) ::ₘ
        .work T (.pair (start + len / 2) (scratch + len / 2) (len / 2 / 2)
          (len - len / 2 - len / 2 / 2)) ::ₘ walkers) s' S calls := by
  obtain ⟨waiting, duties, d, rfl, hplan, h⟩ := h.exists_duty
  obtain ⟨d₁, d₂, e, hbranch, hplan₁, hplan₂⟩ := exists_branch_sort (h default).valid hplan hlong
  rw [← hplan₁, ← hplan₂]
  refine branch hbranch ?_ h
  rw [hplan, hplan₁, hplan₂]
  simp only [Plan.forks]
  rw [forks.eq_def g hg len, if_pos hlong]
  simp only [halvesMerge]
  omega

/-- Two neighbouring spans come apart. -/
theorem pair (h : InProgress g hg cmp ys all K (.work X (.pair start scratch p r) ::ₘ walkers) s S
      calls) (hpos : 0 < p + r) : ∃ T s',
    (∀ j, (openTrigger (pairMerge start scratch p r) X).run (s.holding (S j)) =
      .done (T, s'.holding (S j))) ∧
    InProgress g hg cmp ys all K
      (.work T (.sort start p scratch) ::ₘ .work T (.sort (start + p) r (scratch + p)) ::ₘ walkers)
      s' S calls := by
  obtain ⟨waiting, duties, d, rfl, hplan, h⟩ := h.exists_duty
  obtain ⟨d₁, d₂, e, hbranch, hplan₁, hplan₂⟩ := exists_branch_pair (h default).valid hplan
  rw [← hplan₁, ← hplan₂]
  refine branch hbranch ?_ h
  rw [hplan, hplan₁, hplan₂]
  simp only [Plan.forks, pairMerge]
  omega

/-- **The quarters of a span are forked**, as often as it is too long. -/
theorem forkQuarters {latch : Latch} {forked : List Task}
    (h : InProgress g hg cmp ys all K (.work latch (.sort start len scratch) ::ₘ
      ((forked.map Task.walker : List Walker) + walkers)) s S calls) :
    ∃ first len' forked' s',
      (∀ j, (Task.forkQuarters g latch start len scratch forked).run (s.holding (S j)) =
        .done ((first, len', forked'), s'.holding (S j))) ∧ ¬ g < len' ∧
      InProgress g hg cmp ys all K (.work first (.sort start len' scratch) ::ₘ
        ((forked'.map Task.walker : List Walker) + walkers)) s' S calls := by
  induction len using Nat.strongRecOn generalizing latch forked s with
  | ind len ih =>
    by_cases hlong : g < len
    · -- the halves, the upper quarters, the lower quarters
      obtain ⟨back, s₁, hback, h₁⟩ := h.halves hlong
      obtain ⟨upper, s₂, hupper, h₂⟩ := h₁.swap.pair (by omega)
      obtain ⟨fourth, s₃, hfourth, h₃⟩ := h₂.swap.part
      obtain ⟨third, s₄, hthird, h₄⟩ := h₃.swap.part
      obtain ⟨lower, s₅, hlower, h₅⟩ := h₄.rotate.pair (by omega)
      obtain ⟨second, s₆, hsecond, h₆⟩ := h₅.swap.part
      obtain ⟨first, s₇, hfirst, h₇⟩ := h₆.swap.part
      rw [forkQuarters_eq hlong]
      simp only [StateT.run_bind, Calling.done_bind, hback, hupper, hfourth, hthird, hlower, hsecond,
        hfirst]
      refine ih (len / 2 / 2) (by omega) ?_
      simpa only [List.map_cons, Task.walker, ← Multiset.cons_coe, Multiset.cons_add] using h₇
    · rw [Task.forkQuarters, if_neg hlong]
      exact ⟨latch, len, forked, s, fun _ => rfl, hlong, h⟩

/-! ## Elements sorted and merged -/

/-- A span that is cut no more is sorted. -/
theorem sorted (h : InProgress g hg cmp ys all K (.work X (.sort start len scratch) ::ₘ walkers) s S
      calls) (hshort : ¬ g < len) : ∃ (S' : ι → Store α) (made : List (α × α)),
    (∀ j, Returns cmp ((sortUncut start len scratch).run (s.holding (S j))) ((), s.holding (S' j))
      made) ∧
    InProgress g hg cmp ys all K (.report X ::ₘ walkers)
      (s.noted (.did X (.sort ⟨start, len⟩ ⟨scratch, len⟩))) S' (calls ++ made) := by
  obtain ⟨waiting, duties, d, rfl, hplan, h⟩ := h.exists_duty
  have hfits : ∀ j, SortFits start scratch len (s.holding (S j)) := by
    intro j
    have hwithin := (h j).within
    rw [hplan] at hwithin
    refine ⟨((h j).size .array).symm ▸ hwithin.1, ((h j).size .workspace).symm ▸ hwithin.2, ?_⟩
    have := (h j).lt
    have := hwithin.1
    simp only [Span.stop] at this
    omega
  have hreturns : ∀ j, ∃ left : List α, left.length = len ∧ d.out.length = len ∧
      Returns cmp ((sortUncut start len scratch).run (s.holding (S j)))
        ((), s.holding (((S j).put .array start d.out).put .workspace scratch left)) d.calls := by
    intro j
    have hscript := (h j).valid.script
    have hleft := (h j).segment_left
    have hlen := (h j).valid.left
    rw [hplan] at hscript hleft hlen
    simp only [Plan.source, Plan.left] at hleft hlen
    simp only [Plan.script] at hscript
    rw [sortQuarters, if_neg (by omega), ← hleft] at hscript
    obtain ⟨⟨_, s'⟩, hreturns, left, hout, hscratch, rfl⟩ :=
      returns_of_follows hscript (follows_sortUncut_put (hfits j))
    rw [Store.put_holding, Store.put_holding] at hreturns
    exact ⟨left, hscratch, hout, hreturns⟩
  choose left hscratch hout hreturns using hreturns
  refine ⟨_, d.calls, hreturns, waiting, duties, fun j => (h j).finish ?_ (fun b => ?_) rfl ?_⟩
  · have hdone := Duty.done_sort hplan (hout j) (hscratch j) (hfits j)
    rw [Store.put_holding, Store.put_holding] at hdone
    exact hdone
  · exact (Store.size_put _ _ _ _ b).trans (Store.size_put _ _ _ _ b)
  · rw [hplan]
    rfl

/-- Short runs are merged. -/
theorem merged (h : InProgress g hg cmp ys all K (.work X (.merge m) ::ₘ walkers) s S calls)
    (hshort : max m.left.len m.right.len ≤ g) : ∃ out made,
    (∀ j, Returns cmp (Sorting.merge ((s.holding (S j)).segment m.source m.left)
      ((s.holding (S j)).segment m.source m.right)) out made) ∧
    out.length = m.target.len ∧
    InProgress g hg cmp ys all K (.report X ::ₘ walkers) (s.noted (.did X (.merge m)))
      (fun j => (S j).put m.source.other m.dest out) (calls ++ made) := by
  obtain ⟨waiting, duties, d, rfl, hplan, h⟩ := h.exists_duty
  have hvalid := (h default).valid
  have hout := hvalid.length_out
  rw [hplan] at hout
  refine ⟨d.out, d.calls, fun j => ?_, hout, waiting, duties,
    fun j => (h j).finish ?_ (fun b => ?_) rfl ?_⟩
  · have hleft := (h j).segment_left
    have hright := (h j).segment_right
    have hll := hvalid.left
    have hlr := hvalid.right
    have hscript := hvalid.script
    rw [hplan] at hleft hright hll hlr hscript
    simp only [Plan.source, Plan.left, Plan.right] at hleft hright hll hlr
    simp only [Plan.script] at hscript
    rw [splitMerge_eq hll hlr, cut?_short _ _ hshort, Calling.done_bind, ← hleft, ← hright]
      at hscript
    exact hscript
  · have hwithin := (h j).within
    rw [hplan] at hwithin
    have hdone := Duty.done_merge hplan hout ((h j).size _ ▸ hwithin.2.2)
    rw [Store.put_holding] at hdone
    exact hdone
  · exact Store.size_put _ _ _ _ b
  · rw [hplan]
    rfl

/-! ## Cuts -/

/-- Long runs are cut. -/
theorem cut (h : InProgress g hg cmp ys all K (.work X (.merge m) ::ₘ walkers) s S calls)
    (hlong : g < max m.left.len m.right.len) :
    ∃ (c : Cut m.left.len m.right.len) (made : List (α × α)) (p : UInt32),
      (∀ j, Returns cmp (cut? g ((s.holding (S j)).segment m.source m.left).toArray
        ((s.holding (S j)).segment m.source m.right).toArray m.left.len m.right.len) (some c) made) ∧
      s.pending[X.id]? = some p ∧
      InProgress g hg cmp ys all K
        (.work X (.merge (m.head c.left c.right)) ::ₘ
          .work (.part s.pending.size X) (.merge (m.tail m.left.len m.right.len c.left c.right)) ::ₘ
          walkers)
        (s.cutOff X m m.left.len m.right.len p) S (calls ++ made) := by
  obtain ⟨waiting, duties, d, rfl, hplan, h⟩ := h.exists_duty
  obtain ⟨c, made, head, tail, hcut, hhalves, hcutting⟩ :=
    exists_cutting (h default).valid hplan hlong
  obtain ⟨p, hp, _⟩ := (h default).balanced.counts _ (h default).latch_waiting
  obtain ⟨a, b, hab, ha, hb⟩ :=
    hhalves.digits (Nat.lt_size_self m.left.len) (Nat.lt_size_self m.right.len)
  have hsize_left := Nat.size_le.2 ha
  have hsize_right := Nat.size_le.2 hb
  refine ⟨c, made, p, fun j => ?_, hp, .part s.pending.size d.latch ::ₘ waiting,
    parts s.pending.size d head tail + duties, fun j =>
      (h j).cut hcutting hp (hhalves.pos hg) c.shrinks (by omega)⟩
  have hleft := (h j).segment_left
  have hright := (h j).segment_right
  rw [hplan] at hleft hright
  rw [← hleft, ← hright] at hcut
  exact hcut

/-- **The tails of a merge are forked**, as often as its runs are too long. -/
theorem forkTails {left right : Array α} {ln rn : Nat} {forked : List Task}
    (hleft : ∀ j, left.toList.take ln = (s.holding (S j)).segment m.source ⟨m.left.start, ln⟩)
    (hright : ∀ j, right.toList.take rn = (s.holding (S j)).segment m.source ⟨m.right.start, rn⟩)
    (h : InProgress g hg cmp ys all K (.work X (.merge (m.head ln rn)) ::ₘ
      ((forked.map Task.walker : List Walker) + walkers)) s S calls) :
    ∃ ln' rn' forked' s' made,
      (∀ j, Returns cmp ((Task.forkTails g X m left right ln rn forked).run (s.holding (S j)))
        ((ln', rn', forked'), s'.holding (S j)) made) ∧ max ln' rn' ≤ g ∧
      (∀ j, left.toList.take ln' = (s'.holding (S j)).segment m.source ⟨m.left.start, ln'⟩) ∧
      (∀ j, right.toList.take rn' = (s'.holding (S j)).segment m.source ⟨m.right.start, rn'⟩) ∧
      InProgress g hg cmp ys all K (.work X (.merge (m.head ln' rn')) ::ₘ
        ((forked'.map Task.walker : List Walker) + walkers)) s' S (calls ++ made) := by
  induction hn : ln + rn using Nat.strongRecOn generalizing ln rn forked s calls with
  | ind n ih =>
    subst hn
    by_cases hlong : g < max ln rn
    · have hwithin := h.within
      obtain ⟨c, made, p, hcut, hp, hcutOff⟩ := h.cut (m := m.head ln rn) hlong
      have hl := c.left_le
      have hr := c.right_le
      have htake : ∀ {run : Array α} {a k n : Nat}, a + n ≤ ys.length → k ≤ n →
          (∀ j, run.toList.take n = (s.holding (S j)).segment m.source ⟨a, n⟩) →
          ∀ j, run.toList.take k =
            ((s.cutOff X m ln rn p).holding (S j)).segment m.source ⟨a, k⟩ := by
        intro run a k n hn hk hrun j
        have hkeep : ((s.cutOff X m ln rn p).holding (S j)).segment m.source ⟨a, k⟩ =
            (s.holding (S j)).segment m.source ⟨a, k⟩ :=
          Store.segment_cutOff (s.holding (S j)) X m ln rn p m.source ⟨a, k⟩
        rw [hkeep, ← Store.segment_take (h.size j _ ▸ hn) hk, ← hrun j, List.take_take,
          Nat.min_eq_left hk]
      have hparts : InProgress g hg cmp ys all K (.work X (.merge (m.head c.left c.right)) ::ₘ
          ((((Task.merge (.part s.pending.size X) (m.tail ln rn c.left c.right)) :: forked).map
            Task.walker : List Walker) + walkers)) (s.cutOff X m ln rn p) S (calls ++ made) := by
        rw [List.map_cons, ← Multiset.cons_coe, Multiset.cons_add]
        exact hcutOff
      obtain ⟨ln', rn', forked', s', more, hmore, hshort, hleft', hright', h'⟩ :=
        ih (c.left + c.right) c.shrinks (htake hwithin.1 hl hleft) (htake hwithin.2.1 hr hright)
          hparts rfl
      refine ⟨ln', rn', forked', s', made ++ more, fun j => ?_, hshort, hleft', hright', ?_⟩
      · have hpending : (s.holding (S j)).pending[X.id]? = some p := hp
        rw [run_forkTails hpending, ← cut?_take left right, hleft j, hright j]
        exact (hcut j).bind (hmore j)
      · rwa [← List.append_assoc]
    · obtain ⟨p, hp⟩ : ∃ p, s.pending[X.id]? = some p := h.exists_pending
      refine ⟨ln, rn, forked, s, [], fun j => ?_, Nat.le_of_not_lt hlong, hleft, hright, ?_⟩
      · have hpending : (s.holding (S j)).pending[X.id]? = some p := hp
        rw [run_forkTails hpending, cut?_short _ _ (Nat.le_of_not_lt hlong)]
        exact .done
      · rwa [List.append_nil]

/-! ## Tasks -/

/-- **A merge is done but for what it forks.** -/
theorem mergeHead (h : InProgress g hg cmp ys all K (.work X (.merge m) ::ₘ walkers) s S calls) :
    ∃ forked s' S' made,
      (∀ j, Returns cmp ((Task.mergeHead g X m).run (s.holding (S j)))
        (forked, s'.holding (S' j)) made) ∧
      InProgress g hg cmp ys all K
        (.report X ::ₘ ((forked.map Task.walker : List Walker) + walkers)) s' S'
        (calls ++ made) := by
  have hwithin := h.within
  have hfl : ∀ j, m.left.stop ≤ ((s.holding (S j)).buffer m.source).size := fun j =>
    h.size j _ ▸ hwithin.1
  have hfr : ∀ j, m.right.stop ≤ ((s.holding (S j)).buffer m.source).size := fun j =>
    h.size j _ ▸ hwithin.2.1
  obtain ⟨left, right, hruns⟩ := h.exists_runs
  have hstart : InProgress g hg cmp ys all K (.work X (.merge (m.head m.left.len m.right.len)) ::ₘ
      ((([] : List Task).map Task.walker : List Walker) + walkers)) s S calls := by
    rw [List.map_nil, Multiset.coe_nil, zero_add]
    exact h
  have htake : ∀ {span : Span} {xs : List α} {j : ι},
      span.stop ≤ ((s.holding (S j)).buffer m.source).size →
      (s.holding (S j)).segment m.source span = xs → xs.toArray.toList.take span.len =
        (s.holding (S j)).segment m.source ⟨span.start, span.len⟩ := by
    intro span xs j hspan hxs
    rw [← hxs]
    exact Store.take_segment hspan
  have hread : ∀ {span : Span} {xs : List α} {j : ι},
      span.stop ≤ ((s.holding (S j)).buffer m.source).size →
      (s.holding (S j)).segment m.source span = xs →
        span.read? ((s.holding (S j)).buffer m.source) = some xs.toArray := by
    intro span xs j hspan hxs
    rw [Span.read?_of_le hspan, ← hxs]
    rfl
  obtain ⟨ln, rn, forked, s₁, made, htails, hshort, hleft, hright, h₁⟩ :=
    hstart.forkTails (fun j => htake (hfl j) (hruns j).1) fun j => htake (hfr j) (hruns j).2
  have hwithin₁ := h₁.within
  obtain ⟨out, more, hmerge, hlen, h₂⟩ := h₁.merged hshort
  refine ⟨forked, _, _, made ++ more, fun j => ?_, by rw [← List.append_assoc]; exact h₂⟩
  have hwrite : (write m.source.other (m.head ln rn).target out).run (s₁.holding (S j)) =
      .done ((), (s₁.holding (S j)).put m.source.other m.dest out) :=
    Store.run_write (h₁.size j _ ▸ hwithin₁.2.2) hlen
  simp only [Task.mergeHead, StateT.run_bind, run_read (hread (hfl j) (hruns j).1),
    run_read (hread (hfr j) (hruns j).2), Calling.done_bind, Action.run_ofCalling,
    Calling.bind_bind]
  refine (htails j).bind ?_
  rw [hleft j, hright j]
  refine (hmerge j).bind_done ?_
  dsimp only
  rw [hwrite, Store.put_holding]
  rfl

/-- **A merge is done**, and then what its report leads to. -/
theorem run_merge (h : InProgress g hg cmp ys all (K + 1) (.work X (.merge m) ::ₘ walkers) s S calls)
    (hreport : ∀ {walkers s} {S : ι → Store α} {calls},
      InProgress g hg cmp ys all (K + 1) (.report X ::ₘ walkers) s S calls →
        GoesOn g hg cmp ys all K (Task.report g X) walkers s S calls) :
    GoesOn g hg cmp ys all K (Task.run g (.merge X m)) walkers s S calls := by
  obtain ⟨forked, s₁, S₁, made, hmerge, h₁⟩ := h.mergeHead
  obtain ⟨later, s₂, S₂, more, hmore, h₂⟩ := hreport h₁
  refine ⟨later ++ forked, s₂, S₂, made ++ more, fun j => ?_, ?_⟩
  · simp only [Task.run, StateT.run_bind]
    exact (hmerge j).bind ((hmore j).bind_done rfl)
  · rw [List.map_append, ← Multiset.coe_add, add_assoc, ← List.append_assoc]
    exact h₂

/-- A report that is not the last one is all. -/
theorem report_of_last
    (h : InProgress g hg cmp ys all (K + 1) (.report X ::ₘ walkers) s S calls)
    (hlast : s.pending[X.id]? = some 0 →
      GoesOn g hg cmp ys all K (Task.report g X) walkers s S calls) :
    GoesOn g hg cmp ys all K (Task.report g X) walkers s S calls := by
  obtain ⟨p, hp⟩ : ∃ p, s.pending[X.id]? = some p := h.exists_pending
  by_cases h0 : p = 0
  · exact hlast (h0 ▸ hp)
  · obtain ⟨waiting, duties, h⟩ := h
    have hrun : ∀ j, (Task.report g X).run (s.holding (S j)) =
        .done ([], (s.told X (p - 1) false).holding (S j)) := fun j => run_report_early hp h0
    refine ⟨[], _, S, [], fun j => .of_done (hrun j), waiting, duties, fun j => ?_⟩
    rw [List.map_nil, Multiset.coe_nil, zero_add, List.append_nil]
    exact (h j).told_early hp h0

/-- The last one is passed on. -/
theorem told_last (h : InProgress g hg cmp ys all K (.report X ::ₘ walkers) s S calls)
    (hp : s.pending[X.id]? = some 0) (hup : X.up = some w.latch) (hentry : w.entry = X.entry) :
    InProgress g hg cmp ys all K (w ::ₘ walkers) (s.told X 0 true) S calls := by
  obtain ⟨waiting, duties, h⟩ := h
  obtain ⟨rest, rfl⟩ := Multiset.exists_cons_of_mem (h default).report_waiting
  exact ⟨rest, duties, fun j => (h j).told_last hp hup rfl hentry⟩

/-- **A report is made**, with all that hangs on it. -/
theorem report (X : Latch)
    (h : InProgress g hg cmp ys all (K + 1) (.report X ::ₘ walkers) s S calls) :
    GoesOn g hg cmp ys all K (Task.report g X) walkers s S calls := by
  induction X generalizing walkers s S calls with
  | root id =>
    refine h.report_of_last fun hp => ?_
    obtain ⟨waiting, duties, h⟩ := h
    obtain ⟨rfl, -⟩ := (h default).told_root rfl hp K
    have hrun : ∀ j, (Task.report g (.root id)).run (s.holding (S j)) =
        .done ([], ({ (s.told (.root id) 0 true).noted .completed with completed := true } :
          Store α).holding (S j)) := fun j => run_report_root hp
    refine ⟨[], _, S, [], fun j => .of_done (hrun j), 0, 0, fun j => ?_⟩
    rw [List.append_nil]
    exact ((h j).told_root rfl hp K).2
  | part id whole ih =>
    refine h.report_of_last fun hp => ?_
    exact goesOn_of_run (ih (h.told_last (w := .report whole) hp rfl rfl))
      fun j => run_report_part hp
  | trigger id m next ih =>
    refine h.report_of_last fun hp => ?_
    exact goesOn_of_run ((h.told_last (w := .work next (.merge m)) hp rfl rfl).run_merge ih)
      fun j => run_report_trigger hp

/-- **A span is sorted**, but for what is forked, and then what its report leads to. -/
theorem run_sort {span : Span} (h : InProgress g hg cmp ys all (K + 1)
      (.work X (.sort span.start span.len scratch) ::ₘ walkers) s S calls) :
    GoesOn g hg cmp ys all K (Task.run g (.sort X span scratch)) walkers s S calls := by
  have hstart : InProgress g hg cmp ys all (K + 1) (.work X (.sort span.start span.len scratch) ::ₘ
      ((([] : List Task).map Task.walker : List Walker) + walkers)) s S calls := by
    rw [List.map_nil, Multiset.coe_nil, zero_add]
    exact h
  obtain ⟨first, len, forked, s₁, hfork, hshort, h₁⟩ := hstart.forkQuarters
  obtain ⟨S₂, made, hsort, h₂⟩ := h₁.sorted hshort
  obtain ⟨later, s₃, S₃, more, hmore, h₃⟩ := h₂.report first
  refine ⟨later ++ forked, s₃, S₃, made ++ more, fun j => ?_, ?_⟩
  · rw [Sorting.run_sort, hfork, Calling.done_bind]
    exact (hsort j).bind ((hmore j).bind_done rfl)
  · rw [List.map_append, ← Multiset.coe_add, add_assoc, ← List.append_assoc]
    exact h₃

/-- **A task is run to its end.** -/
theorem run (task : Task)
    (h : InProgress g hg cmp ys all (K + 1) (task.walker ::ₘ walkers) s S calls) :
    GoesOn g hg cmp ys all K (Task.run g task) walkers s S calls := by
  cases task with
  | sort latch span scratch => exact h.run_sort
  | merge latch m => exact h.run_merge (report latch)

end InProgress

end ForkJoin.Sorting

import ForkJoin.Proofs.Sorting.AnyPolicy

/-!
# The work of a sort on its shared buffers

Pieces of work that the latches do not order may be done at the same time. They never meet in a
buffer: neither writes where the other reads or writes. And a merge reads nothing but what was written
in the same sort by work that the latches put before it, so it does not matter what the workspace held
at the start.
-/
namespace ForkJoin.Sorting

open Calling Latch

variable {α ε : Type} {g : Nat} {hg : 0 < g} {cmp : α → α → Ordering} {ys : List α}
  {all : Multiset (α × α)} {K : Nat} {waiting : Multiset Latch} {duties : Multiset (Duty α)}
  {s : Store α} {calls : List (α × α)}

/-- Pieces of work, in the order in which they were done in buffers of `n` elements, that may share
these buffers. -/
structure Shares (n : Nat) (done : List Deed) : Prop where
  within : ∀ u ∈ done, u.job.Within n
  /-- What the latches do not order does not meet. -/
  apart : done.Pairwise fun u v =>
    ¬ u.latch.Precedes v.latch → ¬ v.latch.Precedes u.latch → u.job.Apart v.job
  /-- Nothing is done after what the latches put behind it. -/
  ordered : done.Pairwise fun u v => ¬ v.latch.Precedes u.latch
  /-- What belongs to a merge reads what was written before it, by work that the latches put there. -/
  fresh : ∀ before u after, done = before ++ u :: after → u.job.Merges → ∀ b i, u.job.reads b i →
    ∃ v ∈ before, v.latch.Precedes u.latch ∧ v.job.writes b i

theorem Timely.pairwise {made : List Latch} {done : List Deed} (h : Timely made done) :
    done.Pairwise fun u v => ¬ v.latch.Precedes u.latch := by
  induction done using List.reverseRecOn with
  | nil => exact List.Pairwise.nil
  | append_singleton before u ih =>
    have hbefore : Timely made before := by
      intro earlier v later heq
      refine h earlier v (later ++ [u]) ?_
      rw [heq, List.append_assoc, List.cons_append]
    rw [List.pairwise_append]
    refine ⟨ih hbefore, List.pairwise_singleton _ _, fun v hv x hx => ?_⟩
    rw [List.mem_singleton.1 hx]
    exact (h before u [] rfl).1 v hv

/-- **When nobody is left**, the work that was done may share the buffers. -/
theorem Sound.shares (h : Sound g hg cmp ys all K 0 waiting duties s calls) :
    Shares ys.length (deeds s.log.toList) := by
  have hwithin := h.assigned.within
  have hcompatible := h.assigned.compatible
  have hbelongs := h.listed.belongs
  rw [h.entire_done] at hwithin hcompatible hbelongs
  constructor
  case within => exact fun u hu => hwithin u (Multiset.mem_coe.2 hu)
  case apart =>
    have hpairs := Multiset.pairwise_coe_iff_pairwise.1 hcompatible
    exact hpairs.imp fun huv hnot hnot' => huv.apart hnot hnot'
  case ordered => exact h.dated.timely.pairwise
  case fresh =>
    intro before u after hdone hm b i hr
    have hu : u ∈ deeds s.log.toList := hdone ▸ List.mem_append_right _ List.mem_cons_self
    obtain ⟨id, m, next, hT, hnext, hmem, hreads⟩ := hbelongs u (Multiset.mem_coe.2 hu) hm
    obtain ⟨v, hv, hTv, hwrites⟩ :=
      (h.dated.timely before u after hdone).2 id m next hT hnext hmem b i (hreads b i hr)
    exact ⟨v, hv, ⟨id, m, next, hTv, hnext, hmem⟩, hwrites⟩

/-- **Work that the latches do not order never meets, and no merge reads what was in the workspace
before.** So under each policy the same is done, with the same comparisons, whatever the workspace
holds at the start. -/
theorem runTasks_any_workspace (hg : 0 < g) (cmp : α → α → Ordering) (xs : Array α)
    (hxs : xs.size < 2 ^ 64) : ∃ values : Array α, ∀ policy : Policy,
    ∃ (calls : Array (α × α)) (log : Array Event), Shares xs.size (deeds log.toList) ∧
      ∀ ws : Array α, ws.size = xs.size → ∃ s,
        ((runTasks g policy xs.size).run (Store.start xs ws)).run
          (fun a b => (.ok (cmp a b) : Except ε Ordering)) = .ok ⟨((), s), calls⟩ ∧
        s.array = values ∧ s.log = log := by
  obtain ⟨ys, all, hys, hperm⟩ :=
    (sortQuarters_perm hg xs.toList).returns (f := cmp) fun _ _ _ => trivial
  refine ⟨ys.toArray, fun policy => ?_⟩
  have : Inhabited { ws : Array α // ws.size = xs.size } := ⟨xs, rfl⟩
  obtain ⟨s, T, K, waiting, duties, made, hreturns, h⟩ :=
    exists_end (ι := { ws : Array α // ws.size = xs.size }) hxs (fun ws => ws.2) hys policy
  have hshares := (h default).shares
  rw [hperm.length_eq, Array.length_toList] at hshares
  refine ⟨made.toArray, s.log, hshares, fun ws hws => ⟨s.holding (T ⟨ws, hws⟩), ?_, ?_, rfl⟩⟩
  · exact (hreturns ⟨ws, hws⟩).run
  · exact (h ⟨ws, hws⟩).array_eq

/-- Five numbers are sorted with a comparator that is no order. -/
theorem runTasks_any_workspace_five : 0 < 1 ∧ #[5, 4, 3, 2, 1].size < 2 ^ 64 ∧
    ∃ values : Array Nat, ∀ policy : Policy,
    ∃ (calls : Array (Nat × Nat)) (log : Array Event), Shares 5 (deeds log.toList) ∧
      ∀ ws : Array Nat, ws.size = 5 → ∃ s,
        ((runTasks 1 policy 5).run (Store.start #[5, 4, 3, 2, 1] ws)).run
          (fun a b => (.ok (compare ((a + 3 - b) % 3) 1) : Except String Ordering)) =
            .ok ⟨((), s), calls⟩ ∧
        s.array = values ∧ s.log = log :=
  ⟨Nat.one_pos, by decide,
    runTasks_any_workspace (ε := String) Nat.one_pos (fun a b => compare ((a + 3 - b) % 3) 1)
      #[5, 4, 3, 2, 1] (by decide)⟩

end ForkJoin.Sorting

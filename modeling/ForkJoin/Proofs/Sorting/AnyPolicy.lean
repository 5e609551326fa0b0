import ForkJoin.Proofs.Sorting.EveryRun

/-!
# A sort under any policy

What a state that is in progress says of the log alone: what has come to each latch, in which order
the work was done, and that the end is announced when nobody is left. In the end every latch has had
all its reports, and the merge of every trigger has been done, once. Elements and comparisons are
those of the recursive sort, so they do not depend on the policy.
-/
namespace ForkJoin.Sorting

open Calling Latch

variable {α ε ι : Type} {g : Nat} {hg : 0 < g} {cmp : α → α → Ordering} {ys : List α}
  {all : Multiset (α × α)} {K : Nat} {walkers : Multiset Walker} {waiting : Multiset Latch}
  {duties : Multiset (Duty α)} {s : Store α} {calls : List (α × α)} {X : Latch}

/-! ## What the log tells at any time -/

/-- The reports and the work so far, with these live tasks. -/
structure Orderly (pool : List Task) (s : Store α) : Prop where
  /-- A latch that has not had its last report has had as many as its counter has come down from
  what it was set and raised to. -/
  counted : ∀ X ∈ opened s.log.toList, true ∉ arrivals X s.log.toList →
    ∃ p, s.pending[X.id]? = some p ∧
      (arrivals X s.log.toList).length + p.toNat = expected X s.log.toList
  /-- The last report comes after all others, and nothing after it. -/
  heard : ∀ X ∈ opened s.log.toList, true ∈ arrivals X s.log.toList →
    arrivals X s.log.toList = List.replicate (expected X s.log.toList) false ++ [true]
  /-- No count goes below zero. -/
  solvent : ∀ before, before <+: s.log.toList → ∀ X,
    (arrivals X before).count false ≤ expected X before
  timely : Timely (opened s.log.toList) (deeds s.log.toList)
  completed : .completed ∈ s.log.toList ↔ pool = []

/-- All reports have come, and all merges have been done. -/
structure Settled (log : List Event) : Prop where
  rooted : root 0 ∈ opened log
  heard : ∀ X ∈ opened log, arrivals X log = List.replicate (expected X log) false ++ [true]
  /-- Of each trigger, one linear merge is reported to the next latch; it starts where the merge of
  the trigger starts, and together with what lies behind its cuts it writes all of the target. -/
  merged : ∀ id m next, trigger id m next ∈ opened log →
    ((deeds log).filterMap Deed.merging).count next = 1 ∧
    (∀ u ∈ deeds log, u.latch = next → ∀ m', u.job = .merge m' → m'.IsHead m) ∧
    ∀ b i, (Job.merge m).writes b i →
      ∃ u ∈ deeds log, next ∈ u.latch.path ∧ trigger id m next ∉ u.latch.path ∧ u.job.writes b i
  completed : ∃ before, log = before ++ [.completed] ∧ .completed ∉ before

namespace Sound

section

variable (h : Sound g hg cmp ys all K walkers waiting duties s calls)

include h

theorem not_last_of_waiting (hX : X ∈ waiting) : true ∉ arrivals X s.log.toList := by
  obtain ⟨p, hp, _⟩ := h.balanced.counts X hX
  obtain ⟨k, hk, _⟩ := h.chronicle.due X hX p hp
  rw [hk]
  exact fun hmem => Bool.noConfusion (List.eq_of_mem_replicate hmem)

theorem last_of_not_waiting (hX : X ∈ opened s.log.toList) (hwaiting : X ∉ waiting) :
    true ∈ arrivals X s.log.toList := by
  rw [h.chronicle.gone X hX hwaiting]
  exact List.mem_append_right _ (List.mem_singleton_self _)

/-- The root is waiting as long as somebody is there. -/
theorem root_waiting_iff : root 0 ∈ waiting ↔ walkers ≠ 0 := by
  constructor
  · rintro hroot rfl
    have hwaiting := h.balanced
    rw [Multiset.map_zero] at hwaiting
    rw [hwaiting.waiting_eq_zero] at hroot
    exact Multiset.notMem_zero _ hroot
  · intro hwalkers
    obtain ⟨w, hw⟩ := Multiset.exists_mem_of_ne_zero hwalkers
    have hwaiting := h.balanced.walking_waiting (Multiset.mem_map_of_mem Walker.latch hw)
    exact h.balanced.path_waiting hwaiting (h.balanced.rooted _ hwaiting)

theorem completed_iff : .completed ∈ s.log.toList ↔ walkers = 0 := by
  constructor
  · intro hcompleted
    by_contra hwalkers
    exact h.running (h.root_waiting_iff.2 hwalkers) hcompleted
  · intro hwalkers
    obtain ⟨_, before, hlog, _⟩ := h.ended fun hroot => h.root_waiting_iff.1 hroot hwalkers
    rw [hlog]
    exact List.mem_append_right _ (List.mem_singleton_self _)

/-- **At any time the log is in order.** -/
theorem orderly {pool : List Task} (hpool : walkers = 0 ↔ pool = []) : Orderly pool s where
  counted X hX hlast := by
    have hwaiting : X ∈ waiting := by
      by_contra hwaiting
      exact hlast (h.last_of_not_waiting hX hwaiting)
    obtain ⟨p, hp, _⟩ := h.balanced.counts X hwaiting
    obtain ⟨k, hk, hsum⟩ := h.chronicle.due X hwaiting p hp
    exact ⟨p, hp, by rw [hk, List.length_replicate, hsum]⟩
  heard X hX hlast := h.chronicle.gone X hX fun hwaiting => h.not_last_of_waiting hwaiting hlast
  solvent := h.chronicle.solvent
  timely := h.dated.timely
  completed := h.completed_iff.trans hpool

end

/-! ## The end -/

section

variable (h : Sound g hg cmp ys all K 0 waiting duties s calls)

include h

theorem waiting_eq_zero : waiting = 0 := by
  have hbalanced := h.balanced
  rw [Multiset.map_zero] at hbalanced
  exact hbalanced.waiting_eq_zero

theorem duties_eq_zero : duties = 0 := by
  have hagenda := h.agenda
  rw [h.waiting_eq_zero] at hagenda
  exact Multiset.map_eq_zero.1 hagenda

/-- When nobody is left, everything that was made or done is in order. -/
theorem entire_done : entire duties (deeds s.log.toList) = (deeds s.log.toList : Multiset Deed) := by
  rw [h.duties_eq_zero, entire, Multiset.map_zero, zero_add]

/-- **When nobody is left**, all reports have come and all merges have been done. -/
theorem settled : Settled s.log.toList := by
  have hwaiting : ∀ X, X ∉ waiting := fun X => by
    rw [h.waiting_eq_zero]
    exact Multiset.notMem_zero X
  have hlisted := h.listed
  rw [h.entire_done] at hlisted
  obtain ⟨_, hcompleted⟩ := h.ended (hwaiting _)
  refine ⟨h.chronicle.rooted, fun X hX => h.chronicle.gone X hX (hwaiting X),
    fun id m next hT => ⟨?_, ?_, ?_⟩, hcompleted⟩
  · have honce := hlisted.once
    have heach := hlisted.each id m next hT
    rw [Multiset.filterMap_coe] at honce heach
    exact List.count_eq_one_of_mem (Multiset.coe_nodup.1 honce) (Multiset.mem_coe.1 heach)
  · rintro u hu rfl m' hm'
    exact hlisted.heads u (Multiset.mem_coe.2 hu) m' hm' id m hT
  · intro b i hw
    obtain ⟨u, hu, hrest⟩ := hlisted.covers id m next hT b i hw
    exact ⟨u, Multiset.mem_coe.1 hu, hrest⟩

/-- **When nobody is left**, the array holds what it is to hold. -/
theorem array_eq : s.array = ys.toArray := by
  refine Array.toList_inj.1 (List.ext_getElem? fun i => ?_)
  have hsize : s.array.size = ys.length := h.size .array
  rw [Array.getElem?_toList]
  by_cases hi : i < ys.length
  · have hlays : Lays 0 ys i (ys.get ⟨i, hi⟩) := ⟨Nat.zero_le i, List.getElem?_eq_getElem hi⟩
    rcases h.assigned.yields i _ hlays with ⟨e, he, _⟩ | ⟨hv, _⟩
    · rw [h.duties_eq_zero] at he
      exact absurd he (Multiset.notMem_zero e)
    · exact hv.trans hlays.2.symm
  · rw [List.getElem?_eq_none (Nat.le_of_not_lt hi), Array.getElem?_eq_none (by omega)]

/-- **When nobody is left**, the comparisons that were to be made have been made. -/
theorem calls_eq : (calls : Multiset (α × α)) = all := by
  have hcalls := h.assigned.calls
  rwa [h.duties_eq_zero, Multiset.map_zero, Multiset.sum_zero, add_zero] at hcalls

end

end Sound

/-! ## Runs -/

variable {xs : Array α}

theorem returns_runTasks {policy : Policy} {n : Nat} {s₀ : Store α}
    (h : Returns cmp ((Work.steps (Task.run g) policy (budget n) [.whole n]).run s₀) ([], s) calls)
    (hs : s.completed = true) : Returns cmp ((runTasks g policy n).run s₀) ((), s) calls := by
  simp only [runTasks, Work.drain, StateT.run_bind, Calling.bind_bind]
  refine h.bind_done ?_
  simp only [List.isEmpty_nil, if_true, StateT.run_pure, Calling.pure_eq, Calling.done_bind,
    StateT.run_get, hs]

/-- **Within the budget every run comes to its end**, with all that is known of the state then. -/
theorem exists_end [Inhabited ι] (hxs : xs.size < 2 ^ 64) {W : ι → Array α}
    (hW : ∀ j, (W j).size = xs.size) (hys : Returns cmp (sortQuarters g hg xs.toList) ys calls)
    (policy : Policy) : ∃ (s : Store α) (T : ι → Store α) (K : Nat) (waiting : Multiset Latch)
      (duties : Multiset (Duty α)) (made : List (α × α)),
      (∀ j, Returns cmp ((runTasks g policy xs.size).run (Store.start xs (W j)))
        ((), s.holding (T j)) made) ∧
      ∀ j, Sound g hg cmp ys calls K 0 waiting duties (s.holding (T j)) made := by
  obtain ⟨K, pool, S, made, hreturns, ⟨s, T, hS, waiting, duties, h⟩, hend⟩ :=
    live_of_steps hxs hW hys policy (budget xs.size) 0 (Nat.le_refl _)
  obtain rfl : pool = [] := by
    rcases hend with rfl | hend
    · have hcost := (h default).cost
      rw [Multiset.map_coe, Multiset.coe_card, List.length_map] at hcost
      exact List.eq_nil_of_length_eq_zero (by omega)
    · exact hend
  refine ⟨s, T, K + 0, waiting, duties, made, fun j => returns_runTasks (hS j ▸ hreturns j) ?_, h⟩
  exact ((h j).ended fun hroot => (h j).root_waiting_iff.1 hroot rfl).1

/-- **A sort does not depend on the order in which its tasks are run.** Whichever live task is next at
each step, the log is in order after any number of steps; the sort comes to its end, with all reports
and all merges, and the elements and the comparisons are the same. -/
theorem runTasks_any_policy (hg : 0 < g) (cmp : α → α → Ordering) (xs ws : Array α)
    (hxs : xs.size < 2 ^ 64) (hws : ws.size = xs.size) :
    ∃ (values : Array α) (all : Multiset (α × α)), ∀ policy : Policy,
      (∀ k, ∃ pool s calls,
        ((Work.steps (Task.run g) policy k [.whole xs.size]).run (Store.start xs ws)).run
          (fun a b => (.ok (cmp a b) : Except ε Ordering)) = .ok ⟨(pool, s), calls⟩ ∧
        Orderly pool s) ∧
      ∃ s calls, ((runTasks g policy xs.size).run (Store.start xs ws)).run
          (fun a b => (.ok (cmp a b) : Except ε Ordering)) = .ok ⟨((), s), calls⟩ ∧
        s.array = values ∧ (calls.toList : Multiset (α × α)) = all ∧ Orderly [] s ∧
        Settled s.log.toList := by
  obtain ⟨ys, all, hys, -⟩ := (sortQuarters_perm hg xs.toList).returns fun _ _ _ => trivial
  refine ⟨ys.toArray, all, fun policy => ⟨fun k => ?_, ?_⟩⟩
  · obtain ⟨K, pool, S, made, hreturns, ⟨s, T, hS, waiting, duties, h⟩, -⟩ :=
      live_of_steps (ι := Unit) hxs (fun _ => hws) hys policy k (budget xs.size)
        (Nat.le_add_left _ _)
    refine ⟨pool, S (), made.toArray, (hreturns ()).run, ?_⟩
    rw [hS]
    refine (h ()).orderly ?_
    rw [Multiset.map_coe, Multiset.coe_eq_zero, List.map_eq_nil_iff]
  · obtain ⟨s, T, K, waiting, duties, made, hreturns, h⟩ :=
      exists_end (ι := Unit) hxs (fun _ => hws) hys policy
    exact ⟨s.holding (T ()), made.toArray, (hreturns ()).run, (h ()).array_eq, (h ()).calls_eq,
      (h ()).orderly (iff_of_true rfl rfl), (h ()).settled⟩

/-- Five numbers are sorted with a comparator that says of each that it is greater. -/
theorem runTasks_any_policy_five : 0 < 1 ∧ #[5, 4, 3, 2, 1].size < 2 ^ 64 ∧
    #[0, 0, 0, 0, 0].size = #[5, 4, 3, 2, 1].size ∧
    ∃ (values : Array Nat) (all : Multiset (Nat × Nat)), ∀ policy : Policy,
      (∀ k, ∃ pool s calls,
        ((Work.steps (Task.run 1) policy k [.whole 5]).run
          (Store.start #[5, 4, 3, 2, 1] #[0, 0, 0, 0, 0])).run
          (fun _ _ => (.ok .gt : Except String Ordering)) = .ok ⟨(pool, s), calls⟩ ∧
        Orderly pool s) ∧
      ∃ s calls, ((runTasks 1 policy 5).run
          (Store.start #[5, 4, 3, 2, 1] #[0, 0, 0, 0, 0])).run
          (fun _ _ => (.ok .gt : Except String Ordering)) = .ok ⟨((), s), calls⟩ ∧
        s.array = values ∧ (calls.toList : Multiset (Nat × Nat)) = all ∧ Orderly [] s ∧
        Settled s.log.toList :=
  ⟨Nat.one_pos, by decide, rfl,
    runTasks_any_policy (ε := String) Nat.one_pos (fun _ _ : Nat => .gt) #[5, 4, 3, 2, 1]
      #[0, 0, 0, 0, 0] (by decide) rfl⟩

end ForkJoin.Sorting

import ForkJoin.Proofs.Sorting.DepthFirst
import ForkJoin.Proofs.Sorting.Working

/-!
# Every run of a sort

At the start one task is there, which is to sort everything, and whatever is in the workspace the
sort is in progress. Each task keeps it in progress, so it is in progress after any number of steps
under any policy, and when the budget is used up nobody is left who has something to do.
-/
namespace ForkJoin.Sorting

open Calling Latch

variable {α ε ι : Type} {g : Nat} {hg : 0 < g} {cmp : α → α → Ordering} {ys : List α}
  {all : Multiset (α × α)} {K : Nat} {xs ws : Array α} {calls : List (α × α)}

/-! ## The start -/

/-- The one duty at the start. -/
def Duty.whole (xs : Array α) (ys : List α) (calls : List (α × α)) : Duty α :=
  ⟨root 0, .sort 0 xs.size 0, xs.toList, [], ys, calls⟩

theorem entire_whole (xs : Array α) (ys : List α) (calls : List (α × α)) :
    entire {Duty.whole xs ys calls} [] = {⟨root 0, .sort ⟨0, xs.size⟩ ⟨0, xs.size⟩⟩} := by
  rw [entire, Multiset.map_singleton, Multiset.coe_nil, add_zero]
  rfl

theorem assigned_start (hys : Returns cmp (sortQuarters g hg xs.toList) ys calls) :
    Assigned g hg cmp ys calls {.whole xs ys calls} [] {root 0} 1 (Store.start xs ws).buffer [] := by
  have hlen : ys.length = xs.size := (returns_of_ensures hys (sortQuarters_perm hg _)).length_eq
  constructor
  case valid =>
    intro d hd
    rw [Multiset.mem_singleton.1 hd]
    exact ⟨Array.length_toList, rfl, hys⟩
  case within =>
    intro u hu
    rw [entire_whole, Multiset.mem_singleton] at hu
    simp [hu, hlen, Job.Within, Span.stop]
  case compatible =>
    rw [entire_whole]
    exact pairwise_cons.2 ⟨fun u hu => absurd hu (Multiset.notMem_zero u), Multiset.pairwise_zero _⟩
  case ids =>
    intro u hu Y hY
    rw [entire_whole, Multiset.mem_singleton] at hu
    rw [hu] at hY
    obtain rfl := List.mem_singleton.1 hY
    exact Nat.one_pos
  case fed =>
    intro d hd
    rw [Multiset.mem_singleton.1 hd]
    refine .present id ?_
    rintro b i v ⟨rfl, hv | hv⟩
    · exact Array.getElem?_toList.symm.trans hv.2
    · exact absurd hv.lt (Nat.not_lt.2 hv.1)
  case yields =>
    intro i v hv
    exact .inl ⟨_, Multiset.mem_singleton_self _, rfl, rfl, hv⟩
  case calls =>
    rw [Multiset.map_singleton, Multiset.sum_singleton, Multiset.coe_nil, zero_add]
    rfl

theorem balanced_start : Balanced {root 0} {root 0} #[0] := by
  have hreports : reports {root 0} {root 0} = {root 0} := rfl
  constructor
  case ids => exact Multiset.nodup_singleton _
  case known =>
    intro X hX
    rwa [hreports] at hX
  case counts =>
    intro X hX
    rw [Multiset.mem_singleton.1 hX, hreports]
    exact ⟨0, rfl, (Multiset.count_singleton_self _).symm⟩
  case alone =>
    intro id m next hT
    exact absurd (Multiset.mem_singleton.1 hT) (by simp)
  case rooted =>
    intro X hX
    rw [Multiset.mem_singleton.1 hX]
    exact self_mem_path _

theorem chronicle_start : Chronicle [.opened (root 0)] {root 0} #[0] := by
  have hnone : ∀ X, arrivals X [.opened (root 0)] = [] ∧ raises X [.opened (root 0)] = 0 := fun X =>
    ⟨arrivals_opened X _, raises_opened X _⟩
  constructor
  case ids => rfl
  case known =>
    intro X hX
    rw [Multiset.mem_singleton.1 hX]
    exact List.mem_singleton_self _
  case after => exact fun X _ => hnone X
  case paths =>
    intro X hX Y hY
    rw [List.mem_singleton.1 hX] at hY
    exact hY
  case due =>
    intro X hX p hp
    rw [Multiset.mem_singleton.1 hX] at hp ⊢
    obtain rfl := Option.some.inj hp
    exact ⟨0, (hnone _).1, by rw [expected, (hnone _).2]; rfl⟩
  case gone =>
    intro X hX hwaiting
    exact absurd (Multiset.mem_singleton.2 (List.mem_singleton.1 hX)) hwaiting
  case solvent =>
    intro before hbefore X
    obtain rfl | rfl : before = [] ∨ before = [.opened (root 0)] := by
      rcases List.prefix_cons_iff.1 hbefore with rfl | ⟨rest, rfl, hrest⟩
      · exact .inl rfl
      · rw [List.prefix_nil.1 hrest]
        exact .inr rfl
    · exact Nat.zero_le _
    · rw [(hnone X).1]
      exact Nat.zero_le _
  case rooted => exact List.mem_singleton_self _

theorem dated_start : Dated [] {root 0} [root 0] := by
  constructor
  case known => exact fun u hu => absurd hu List.not_mem_nil
  case early => exact fun u hu => absurd hu List.not_mem_nil
  case full =>
    intro id m next hT
    exact absurd (List.mem_singleton.1 hT) (by simp)
  case timely =>
    intro before u after heq
    exact absurd heq.symm (List.append_ne_nil_of_right_ne_nil _ (List.cons_ne_nil u after))

theorem listed_start (xs : Array α) (ys : List α) (calls : List (α × α)) :
    Listed (entire {Duty.whole xs ys calls} []) [root 0] := by
  rw [entire_whole]
  have hnone : ∀ id m next, trigger id m next ∉ [root 0] := by
    intro id m next hT
    exact absurd (List.mem_singleton.1 hT) (by simp)
  constructor
  case belongs =>
    intro u hu hm
    rw [Multiset.mem_singleton.1 hu] at hm
    exact hm.elim
  case once => exact Multiset.nodup_zero
  case each => exact fun id m next hT => absurd hT (hnone id m next)
  case heads => exact fun u _ m' _ id m hT => absurd hT (hnone id m u.latch)
  case covers => exact fun id m next hT => absurd hT (hnone id m next)

/-- **At the start the sort is in progress**, whatever the workspace holds. -/
theorem sound_start (hxs : xs.size < 2 ^ 64) (hws : ws.size = xs.size)
    (hys : Returns cmp (sortQuarters g hg xs.toList) ys calls) (hK : budget xs.size ≤ K) :
    Sound g hg cmp ys calls K {.work (root 0) (.sort 0 xs.size 0)} {root 0} {.whole xs ys calls}
      (Store.start xs ws) [] := by
  have hlen : ys.length = xs.size := (returns_of_ensures hys (sortQuarters_perm hg _)).length_eq
  constructor
  case lt => rwa [hlen]
  case size =>
    intro b
    rw [hlen]
    cases b
    · rfl
    · exact hws
  case balanced => exact balanced_start
  case chronicle => exact chronicle_start
  case agenda => rfl
  case assigned => exact assigned_start hys
  case dated => exact dated_start
  case listed => exact listed_start xs ys calls
  case room =>
    intro d hd m hplan
    rw [Multiset.mem_singleton.1 hd] at hplan
    cases hplan
  case running =>
    intro _ hmem
    exact absurd (List.mem_singleton.1 hmem) (by simp)
  case ended => exact fun hroot => absurd (Multiset.mem_singleton_self _) hroot
  case cost =>
    have hforks := forks_le g hg xs.size
    rw [budget] at hK
    rw [Multiset.map_singleton, Multiset.sum_singleton, Multiset.card_singleton, Duty.whole,
      Plan.forks]
    omega

/-! ## Steps -/

/-- The sort is in progress in all states of a family, with these live tasks. They differ in their
elements only. -/
def Live (g : Nat) (hg : 0 < g) (cmp : α → α → Ordering) (ys : List α) (all : Multiset (α × α))
    (K : Nat) (pool : Multiset Task) (S : ι → Store α) (calls : List (α × α)) : Prop :=
  ∃ s T, (∀ j, S j = s.holding (T j)) ∧
    InProgress g hg cmp ys all K (pool.map Task.walker) s T calls

/-- **Whichever task is run, the sort stays in progress**, with one task less in the budget. -/
theorem Live.leads [Inhabited ι] (K : Nat) :
    Work.Leads (ι := ι) (Task.run g) cmp (Live g hg cmp ys all (K + 1)) (Live g hg cmp ys all K) := by
  rintro task rest S calls ⟨s, T, hS, h⟩
  rw [Multiset.map_cons] at h
  obtain ⟨forked, s', T', made, hreturns, h'⟩ := h.run task
  refine ⟨forked, fun j => s'.holding (T' j), made, fun j => hS j ▸ hreturns j, s', T',
    fun _ => rfl, ?_⟩
  rwa [Multiset.map_add, Multiset.map_coe]

/-- The task that is there at the start. -/
abbrev Task.whole (n : Nat) : Task := .sort (root 0) ⟨0, n⟩ 0

/-- **After any number of steps the sort is in progress**, whatever the policy is and the workspaces
hold at the start; the steps are the same for all of them. If they may use up the budget, no task is
left then. -/
theorem live_of_steps [Inhabited ι] (hxs : xs.size < 2 ^ 64) {W : ι → Array α}
    (hW : ∀ j, (W j).size = xs.size) (hys : Returns cmp (sortQuarters g hg xs.toList) ys calls)
    (policy : Policy) (k extra : Nat) (hK : budget xs.size ≤ k + extra) :
    ∃ k' pool S made,
      (∀ j, Returns cmp ((Work.steps (Task.run g) policy k [.whole xs.size]).run
        (Store.start xs (W j))) (pool, S j) made) ∧
      Live g hg cmp ys calls (k' + extra) (pool : Multiset Task) S made ∧ (k' = 0 ∨ pool = []) := by
  have hstart : Live g hg cmp ys calls (k + extra) (([.whole xs.size] : List Task) : Multiset Task)
      (fun j => Store.start xs (W j)) [] :=
    ⟨Store.start xs xs, fun j => Store.start xs (W j), fun _ => rfl, _, _, fun j =>
      sound_start hxs (hW j) hys hK⟩
  have hleads : ∀ k, Work.Leads (ι := ι) (Task.run g) cmp (Live g hg cmp ys calls (k + 1 + extra))
      (Live g hg cmp ys calls (k + extra)) := by
    intro k
    rw [Nat.add_right_comm]
    exact Live.leads (k + extra)
  obtain ⟨k', pool, S, made, hreturns, hlive, hend⟩ :=
    Work.steps_lead (I := fun k => Live g hg cmp ys calls (k + extra)) hleads policy k hstart
  rw [List.nil_append] at hlive
  exact ⟨k', pool, S, made, hreturns, hlive, hend⟩

end ForkJoin.Sorting

import Mathlib.Data.Nat.Size
import ForkJoin.Proofs.Sorting.Balance
import ForkJoin.Proofs.Sorting.Branching
import ForkJoin.Proofs.Sorting.Chronicle
import ForkJoin.Proofs.Sorting.Sequence

/-!
# The state of a sort in progress

At any time of a sort there are some who have something to do: to carry out a plan, or to report.
`Sound` is what is known of the state then, whatever was done before and in whatever order. The
counters balance, the log is in order, and what is left to be done are the plans of those who are
there and the merges that hang on the triggers that are waiting.
-/
namespace ForkJoin.Sorting

open Calling Latch

variable {α : Type}

/-- One who has something to do. -/
inductive Walker where
  /-- Is about to carry out a plan, and then to report. -/
  | work (latch : Latch) (plan : Plan)
  /-- Is about to report. -/
  | report (latch : Latch)

def Walker.latch : Walker → Latch
  | work latch _ => latch
  | report latch => latch

/-- What is still to be done by one before the report. -/
def Walker.entry : Walker → Option (Latch × Plan)
  | work latch plan => some (latch, plan)
  | report _ => none

/-- What is still to be done by the last one who reports. -/
def Latch.entry : Latch → Option (Latch × Plan)
  | trigger _ m next => some (next, .merge m)
  | _ => none

def Duty.entry (d : Duty α) : Latch × Plan := (d.latch, d.plan)

/-- All that is still to be done. -/
def plans (walkers : Multiset Walker) (waiting : Multiset Latch) : Multiset (Latch × Plan) :=
  walkers.filterMap Walker.entry + waiting.filterMap Latch.entry

section

variable (walkers : Multiset Walker) (waiting : Multiset Latch) (id : Nat) (X : Latch)

@[simp] theorem plans_work (plan : Plan) :
    plans (.work X plan ::ₘ walkers) waiting = (X, plan) ::ₘ plans walkers waiting := by
  rw [plans, plans, Multiset.filterMap_cons_some _ _ _ (by rfl), Multiset.cons_add]

@[simp] theorem plans_report : plans (.report X ::ₘ walkers) waiting = plans walkers waiting := by
  rw [plans, plans, Multiset.filterMap_cons_none _ _ (by rfl)]

@[simp] theorem plans_part : plans walkers (part id X ::ₘ waiting) = plans walkers waiting := by
  rw [plans, plans, Multiset.filterMap_cons_none _ _ (by rfl)]

@[simp] theorem plans_trigger (m : Merge) :
    plans walkers (trigger id m X ::ₘ waiting) = (X, .merge m) ::ₘ plans walkers waiting := by
  rw [plans, plans, Multiset.filterMap_cons_some _ _ _ (by rfl), Multiset.add_cons]

end

/-- What is known of a sort that is to leave `ys`, with the comparisons in `all`, and may still run
`K` tasks. -/
structure Sound (g : Nat) (hg : 0 < g) (cmp : α → α → Ordering) (ys : List α)
    (all : Multiset (α × α)) (K : Nat) (walkers : Multiset Walker) (waiting : Multiset Latch)
    (duties : Multiset (Duty α)) (s : Store α) (calls : List (α × α)) : Prop where
  lt : ys.length < 2 ^ 64
  size : ∀ b, (s.buffer b).size = ys.length
  balanced : Balanced (walkers.map Walker.latch) waiting s.pending
  chronicle : Chronicle s.log.toList waiting s.pending
  agenda : duties.map Duty.entry = plans walkers waiting
  assigned : Assigned g hg cmp ys all duties (deeds s.log.toList) waiting s.pending.size s.buffer
    calls
  dated : Dated (deeds s.log.toList) waiting (opened s.log.toList)
  listed : Listed (entire duties (deeds s.log.toList)) (opened s.log.toList)
  /-- A latch to which a merge is reported has room for as many reports as the merge can announce:
  each cut takes a binary digit off the length of a run. -/
  room : ∀ d ∈ duties, ∀ m, d.plan = .merge m → ∀ p, s.pending[d.latch.id]? = some p →
    p.toNat + Nat.size m.left.len + Nat.size m.right.len ≤ 2 ^ 8
  running : root 0 ∈ waiting → .completed ∉ s.log.toList
  ended : root 0 ∉ waiting → s.completed = true ∧
    ∃ before, s.log.toList = before ++ [.completed] ∧ .completed ∉ before
  cost : walkers.card + (duties.map fun d => d.plan.forks g hg).sum ≤ K

variable {g : Nat} {hg : 0 < g} {cmp : α → α → Ordering} {ys : List α} {all : Multiset (α × α)}
  {K : Nat} {walkers : Multiset Walker} {waiting : Multiset Latch} {duties : Multiset (Duty α)}
  {s : Store α} {calls : List (α × α)} {X : Latch} {plan : Plan} {d e : Duty α}

/-- A duty is that of one who is there, or hangs on a trigger that is waiting. -/
theorem working_or_hung (hagenda : duties.map Duty.entry = plans walkers waiting)
    (he : e ∈ duties) : .work e.latch e.plan ∈ walkers ∨
      ∃ id m, trigger id m e.latch ∈ waiting ∧ e.plan = .merge m := by
  have hentry : e.entry ∈ plans walkers waiting := hagenda ▸ Multiset.mem_map_of_mem _ he
  rcases Multiset.mem_add.1 hentry with hentry | hentry
  · obtain ⟨w, hw, hwe⟩ := (Multiset.mem_filterMap _ _).1 hentry
    cases w with
    | work L p =>
      obtain ⟨rfl, rfl⟩ := Prod.mk.inj (Option.some.inj hwe)
      exact .inl hw
    | report L => cases hwe
  · obtain ⟨T, hT, hTe⟩ := (Multiset.mem_filterMap _ _).1 hentry
    cases T with
    | root id => cases hTe
    | part id whole => cases hTe
    | trigger id m next =>
      obtain ⟨rfl, hplan⟩ := Prod.mk.inj (Option.some.inj hTe)
      exact .inr ⟨id, m, hT, hplan.symm⟩

namespace Sound

theorem latch_walking :
    d.latch ∈ (Walker.work d.latch d.plan ::ₘ walkers).map Walker.latch := by
  rw [Multiset.map_cons]
  exact Multiset.mem_cons_self _ _

/-- Who carries out a plan has a duty. -/
theorem exists_duty (h : Sound g hg cmp ys all K (.work X plan ::ₘ walkers) waiting duties s calls) :
    ∃ d rest, duties = d ::ₘ rest ∧ d.latch = X ∧ d.plan = plan := by
  have hagenda := h.agenda
  rw [plans_work] at hagenda
  have hmem : (X, plan) ∈ duties.map Duty.entry := hagenda ▸ Multiset.mem_cons_self _ _
  obtain ⟨d, hd, hentry⟩ := Multiset.mem_map.1 hmem
  obtain ⟨rest, rfl⟩ := Multiset.exists_cons_of_mem hd
  exact ⟨d, rest, rfl, congrArg Prod.fst hentry, congrArg Prod.snd hentry⟩

theorem duty_waiting (h : Sound g hg cmp ys all K walkers waiting duties s calls)
    (he : e ∈ duties) : e.latch ∈ waiting := by
  rcases working_or_hung h.agenda he with hw | ⟨id, m, hT, _⟩
  · exact h.balanced.walking_waiting (Multiset.mem_map_of_mem Walker.latch hw)
  · exact h.balanced.known _ (Balanced.mem_reports_of_up hT rfl)

section

variable (h : Sound g hg cmp ys all K (.work d.latch d.plan ::ₘ walkers) waiting (d ::ₘ duties) s
  calls)

include h

/-- The other duties are those of the others. -/
theorem agenda_rest : duties.map Duty.entry = plans walkers waiting := by
  have hagenda := h.agenda
  rw [plans_work, Multiset.map_cons] at hagenda
  exact (Multiset.cons_inj_right _).1 hagenda

theorem latch_waiting : d.latch ∈ waiting :=
  h.balanced.walking_waiting latch_walking

/-- A duty is that of another who is there, or hangs on a trigger that is waiting. -/
theorem walking_or_hung (he : e ∈ duties) : e.latch ∈ walkers.map Walker.latch ∨
    ∃ id m, trigger id m e.latch ∈ waiting ∧ e.plan = .merge m :=
  (working_or_hung h.agenda_rest he).imp_left fun hw => Multiset.mem_map_of_mem Walker.latch hw

/-- **Who is there may carry out the plan**: nothing has to be done before, and what has to be done
after it waits for it. -/
theorem ready : d.Ready duties waiting := by
  constructor
  · rintro e he ⟨id, m, next, hT, hnext, hmem⟩
    have hwaiting := h.balanced.path_waiting (h.duty_waiting (Multiset.mem_cons_of_mem he)) hT
    exact hmem (h.balanced.trigger_mem_path latch_walking hwaiting hnext)
  · rintro e he ⟨id, m, next, hT, hnext, hmem⟩
    have hwaiting := h.balanced.path_waiting h.latch_waiting hT
    obtain rfl := h.balanced.eq_next hwaiting (h.duty_waiting (Multiset.mem_cons_of_mem he)) hnext
      hmem
    rcases h.walking_or_hung he with hw | ⟨_, m', _, hplan⟩
    · refine absurd rfl (h.balanced.next_ne ?_ hwaiting)
      rw [Multiset.map_cons]
      exact Multiset.mem_cons_of_mem hw
    · exact ⟨by rw [hplan]; trivial, id, m, hwaiting, hT⟩

/-- **What is to be sorted or merged is there.** -/
theorem takes_here {b : Buffer} {i : Nat} {v : α} (hv : d.takes b i v) :
    (s.buffer b)[i]? = some v := by
  rcases h.assigned.fed d (Multiset.mem_cons_self _ _) with
    ⟨_, hhere⟩ | ⟨id, m, next, _, _, hnext, hmem, _, hsupplied⟩
  · exact hhere b i v hv
  · rcases hsupplied b i v hv with ⟨e, he, hgate, _⟩ | ⟨hv, _⟩
    · -- the trigger is not waiting any more, so nothing is left that goes into it
      have hT := h.balanced.path_waiting (h.duty_waiting he) (hgate ▸ gate_mem_path e.latch)
      exact absurd (h.balanced.trigger_mem_path latch_walking hT hnext) hmem
    · exact hv

theorem root_waiting : root 0 ∈ waiting :=
  h.balanced.path_waiting h.latch_waiting (h.balanced.rooted _ h.latch_waiting)

theorem next_lt {id : Nat} {m : Merge} {next : Latch} (hT : trigger id m next ∈ waiting) :
    next.id < s.pending.size :=
  h.balanced.id_lt (h.balanced.known _ (Balanced.mem_reports_of_up hT rfl))

theorem path_lt (Y : Latch) (hY : Y ∈ d.latch.path) : Y.id < s.pending.size :=
  h.balanced.id_lt (h.balanced.path_waiting h.latch_waiting hY)

theorem within : d.plan.job.Within ys.length :=
  h.assigned.within d.deed (mem_entire.2 (.inl ⟨d, Multiset.mem_cons_self _ _, rfl⟩))

theorem latch_lt (u : Deed) (hu : u ∈ entire (d ::ₘ duties) (deeds s.log.toList)) :
    u.latch.id < s.pending.size :=
  h.assigned.ids u hu _ (self_mem_path _)

variable {news : Multiset (Duty α)} {searched : List Deed} {made : List (α × α)}

/-- What is to be shown when a plan comes apart. The elements stay as they are. -/
theorem replace (s' : Store α) (walkers' : Multiset Walker) (waiting' : Multiset Latch)
    (hr : Refines g hg cmp ys.length s.pending.size s'.pending.size d news searched made)
    (hbuffer : s'.buffer = s.buffer) (hpending : s.pending.size ≤ s'.pending.size)
    (hdeeds : deeds s'.log.toList = deeds s.log.toList ++ searched)
    (hbalanced : Balanced (walkers'.map Walker.latch) waiting' s'.pending)
    (hchronicle : Chronicle s'.log.toList waiting' s'.pending)
    (hagenda : news.map Duty.entry + plans walkers waiting =
      plans walkers' waiting')
    (htriggers : ∀ id m next, trigger id m next ∈ waiting' →
      trigger id m next ∈ waiting ∨ s.pending.size ≤ next.id)
    (hfed : ∀ e ∈ news, Fed (news + duties) (deeds s.log.toList ++ searched) waiting'
      s'.pending.size s.buffer e)
    (hdated : Dated (deeds s'.log.toList) waiting' (opened s'.log.toList))
    (hlisted : Listed (entire news searched + entire duties (deeds s.log.toList))
      (opened s'.log.toList))
    (hroom : ∀ e ∈ news + duties, ∀ m, e.plan = .merge m → ∀ p,
      s'.pending[e.latch.id]? = some p →
        p.toNat + Nat.size m.left.len + Nat.size m.right.len ≤ 2 ^ 8)
    (hroot : root 0 ∈ waiting') (hcompleted : .completed ∉ s'.log.toList)
    (hcost : walkers'.card + (news.map fun e => e.plan.forks g hg).sum ≤
      walkers.card + 1 + d.plan.forks g hg) :
    Sound g hg cmp ys all K walkers' waiting' (news + duties) s' (calls ++ made) where
  lt := h.lt
  size b := by rw [hbuffer, h.size]
  balanced := hbalanced
  chronicle := hchronicle
  agenda := by rw [Multiset.map_add, h.agenda_rest, hagenda]
  assigned := by
    rw [hdeeds, hbuffer]
    exact h.assigned.refine hr hpending htriggers hfed
  dated := hdated
  listed := by
    rw [hdeeds, entire_add]
    exact hlisted
  room := hroom
  running _ := hcompleted
  ended hended := absurd hroot hended
  cost := by
    have hcost' := h.cost
    rw [Multiset.card_cons, Multiset.map_cons, Multiset.sum_cons] at hcost'
    rw [Multiset.map_add, Multiset.sum_add]
    omega

end

end Sound

end ForkJoin.Sorting

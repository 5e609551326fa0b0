import ForkJoin.Proofs.Sorting.Opening

/-!
# Plans that are carried out

When a plan has been carried out its duty is done, and the end is to be reported. A report that is
not the last one is all. The last one goes on to what hears of it, with the merge that hangs on the
latch, and at the root it is the end of the sort. The state stays sound.
-/
namespace ForkJoin.Sorting

open Calling Latch

variable {α : Type} {g : Nat} {hg : 0 < g} {cmp : α → α → Ordering} {ys : List α}
  {all : Multiset (α × α)} {K : Nat} {walkers : Multiset Walker} {waiting : Multiset Latch}
  {duties : Multiset (Duty α)} {s : Store α} {calls : List (α × α)} {d e : Duty α} {X Y : Latch}

namespace Sound

/-! ## Work -/

/-- **A plan is carried out**: what it gives is there, nothing else was written, and it is noted. -/
theorem finish (h : Sound g hg cmp ys all K (.work d.latch d.plan ::ₘ walkers) waiting
      (d ::ₘ duties) s calls) {s' : Store α} (hdone : d.Done s.buffer s'.buffer)
    (hsize : ∀ b, (s'.buffer b).size = (s.buffer b).size) (hpending : s'.pending = s.pending)
    (hlog : s'.log = s.log.push (.did d.latch d.plan.job)) :
    Sound g hg cmp ys all K (.report d.latch ::ₘ walkers) waiting duties s' (calls ++ d.calls) := by
  have hlist : s'.log.toList = s.log.toList ++ [.did d.latch d.plan.job] := by
    rw [hlog, Array.toList_push]
  have hdeeds : deeds s'.log.toList = deeds s.log.toList ++ [d.deed] := by
    rw [hlist, deeds_concat, deeds_did]
    rfl
  have hopened : opened s'.log.toList = opened s.log.toList := by
    rw [hlist, opened_concat]
    exact List.append_nil _
  have hroot := h.balanced.rooted _ h.latch_waiting
  have hlisted := h.listed
  rw [entire_cons, ← entire_done, ← hdeeds, ← hopened] at hlisted
  refine { lt := h.lt, size := fun b => by rw [hsize, h.size], balanced := ?balanced,
           chronicle := ?chronicle, agenda := ?agenda, assigned := ?assigned, dated := ?dated,
           listed := hlisted, room := ?room, running := fun _ => ?running,
           ended := fun hended => absurd h.root_waiting hended, cost := ?cost }
  case balanced =>
    rw [Multiset.map_cons, hpending]
    exact h.balanced_cons
  case chronicle =>
    rw [hlist, hpending]
    exact h.chronicle.quiet (Chronicle.quiet_did _ _)
  case agenda => rw [plans_report, h.agenda_rest]
  case assigned =>
    rw [hdeeds, hpending]
    exact h.assigned.finish h.ready hdone hroot
  case dated =>
    rw [hdeeds, hopened]
    exact h.dated_concat _
  case room =>
    intro e he m hplan p hp
    rw [hpending] at hp
    exact h.room e (Multiset.mem_cons_of_mem he) m hplan p hp
  case running =>
    rw [hlist]
    exact h.not_completed (by simp)
  case cost =>
    have hcost := h.cost
    rw [Multiset.map_cons, Multiset.sum_cons, Multiset.card_cons] at hcost
    rw [Multiset.card_cons]
    omega

/-! ## Reports -/

theorem report_waiting (h : Sound g hg cmp ys all K (.report X ::ₘ walkers) waiting duties s calls) :
    X ∈ waiting := by
  refine h.balanced.walking_waiting ?_
  rw [Multiset.map_cons]
  exact Multiset.mem_cons_self _ _

/-- What a latch was told does not count as done, nor as a new latch. -/
theorem deeds_told (s : Store α) (X : Latch) (p : UInt32) (last : Bool) :
    deeds (s.told X p last).log.toList = deeds s.log.toList := by
  rw [Store.told, Array.toList_push, deeds_concat]
  exact List.append_nil _

theorem opened_told (s : Store α) (X : Latch) (p : UInt32) (last : Bool) :
    opened (s.told X p last).log.toList = opened s.log.toList := by
  rw [Store.told, Array.toList_push, opened_concat]
  exact List.append_nil _

theorem not_completed_told (h : .completed ∉ s.log.toList) (p : UInt32) (last : Bool) :
    .completed ∉ (s.told X p last).log.toList := by
  rw [Store.told, Array.toList_push]
  simpa using h

theorem size_pending_told (s : Store α) (X : Latch) (p : UInt32) (last : Bool) :
    (s.told X p last).pending.size = s.pending.size := Array.size_setIfInBounds

/-- **A report that is not the last one** is all that there is to do. -/
theorem told_early (h : Sound g hg cmp ys all (K + 1) (.report X ::ₘ walkers) waiting duties s calls)
    {p : UInt32} (hp : s.pending[X.id]? = some p) (h0 : p ≠ 0) :
    Sound g hg cmp ys all K walkers waiting duties (s.told X (p - 1) false) calls := by
  have hX := h.report_waiting
  have hbalanced := h.balanced
  rw [Multiset.map_cons] at hbalanced
  have hroot : root 0 ∈ waiting := hbalanced.path_waiting hX (hbalanced.rooted X hX)
  refine { lt := h.lt, size := fun b => by rw [Store.buffer_told, h.size],
           balanced := hbalanced.told_early hp h0, chronicle := ?chronicle, agenda := ?agenda,
           assigned := ?assigned, dated := ?dated, listed := ?listed, room := ?room,
           running := fun _ => ?running, ended := fun hended => absurd hroot hended,
           cost := ?cost }
  case chronicle =>
    rw [Store.told, Array.toList_push]
    exact h.chronicle.told_early hX hp h0
  case agenda => rw [h.agenda, plans_report]
  case assigned =>
    rw [deeds_told, size_pending_told, funext (Store.buffer_told s X (p - 1) false)]
    exact h.assigned
  case dated =>
    rw [deeds_told, opened_told]
    exact h.dated
  case listed =>
    rw [deeds_told, opened_told]
    exact h.listed
  case room =>
    intro e he m hplan q hq
    have hroom := h.room e he m hplan
    rw [Store.told, hbalanced.pending_set hX (h.duty_waiting he)] at hq
    by_cases heX : e.latch = X
    · rw [if_pos heX] at hq
      obtain rfl := Option.some.inj hq
      have := hroom p (heX ▸ hp)
      have := toNat_sub_one h0
      omega
    · rw [if_neg heX] at hq
      exact hroom q hq
  case running => exact not_completed_told (h.running hroot) _ _
  case cost =>
    have hcost := h.cost
    rw [Multiset.card_cons] at hcost
    omega

/-- What is known of the duties does not depend on what waits no more. -/
theorem assigned_rest
    (h : Sound g hg cmp ys all K walkers (X ::ₘ waiting) duties s calls) :
    Assigned g hg cmp ys all duties (deeds s.log.toList) waiting s.pending.size s.buffer calls where
  valid := h.assigned.valid
  within := h.assigned.within
  compatible := h.assigned.compatible
  ids := h.assigned.ids
  fed e he := by
    rcases h.assigned.fed e he with
      ⟨hm, hhere⟩ | ⟨id, m, next, hm, hid, hnext, hmem, hunique, hsupplied⟩
    · exact .present hm hhere
    · exact .behind id m next hm hid hnext hmem
        (fun id' m' hT => hunique id' m' (Multiset.mem_cons_of_mem hT)) hsupplied
  yields := h.assigned.yields
  calls := h.assigned.calls

section

variable (h : Sound g hg cmp ys all K (.report X ::ₘ walkers) (X ::ₘ waiting) duties s calls)
  (hp : s.pending[X.id]? = some 0)

include h hp

/-- When the last report comes to a latch, nothing is left to be done that would be reported to
it. -/
theorem not_mem_path_of_last (he : e ∈ duties) : X ∉ e.latch.path := by
  have hbalanced := h.balanced
  rw [Multiset.map_cons] at hbalanced
  obtain ⟨hwalking, hups⟩ := hbalanced.not_mem_of_last hp
  have hnone : ∀ Z ∈ X ::ₘ waiting, Z.up ≠ some X := by
    intro Z hZ hup
    rcases Multiset.mem_cons.1 hZ with rfl | hZ
    · exact not_mem_path_of_up hup (self_mem_path Z) (self_mem_path Z)
    · exact hups ((Multiset.mem_filterMap _ _).2 ⟨Z, hZ, hup⟩)
  intro hmem
  rcases eq_or_exists_below hmem with rfl | ⟨Z, hZ, hup⟩
  · rcases working_or_hung h.agenda he with hw | ⟨id, m, hT, _⟩
    · have hw' := (Multiset.mem_cons.1 hw).resolve_left (by simp)
      exact hwalking (Multiset.mem_map.2 ⟨_, hw', rfl⟩)
    · exact hnone _ hT rfl
  · exact hnone Z (h.balanced.path_waiting (h.duty_waiting he) hZ) hup

/-- When the last report comes to a trigger, all of both runs of its merge was written. -/
theorem written_of_last {id : Nat} {m : Merge} {next : Latch} (hX : X = trigger id m next)
    {b : Buffer} {i : Nat} (hr : (Job.merge m).reads b i) :
    ∃ u ∈ deeds s.log.toList, X ∈ u.latch.path ∧ u.job.writes b i := by
  have hentry : (next, Plan.merge m) ∈ duties.map Duty.entry := by
    rw [h.agenda, plans_report, hX, plans_trigger]
    exact Multiset.mem_cons_self _ _
  obtain ⟨e, he, heq⟩ := Multiset.mem_map.1 hentry
  obtain ⟨rfl, hplan⟩ := Prod.mk.inj heq
  have hmerges : e.plan.job.Merges := by
    rw [hplan]
    trivial
  obtain ⟨v, hv⟩ := (h.assigned.valid e he).exists_takes hmerges (b := b) (i := i) <| by
    rw [Duty.deed, hplan]
    exact hr
  rcases h.assigned.fed e he with ⟨hm, _⟩ | ⟨id', m', next', _, _, _, _, hunique, hsupplied⟩
  · exact absurd hmerges hm
  · have hgate := hunique id m (hX ▸ Multiset.mem_cons_self _ _)
    rw [← hgate, ← hX] at hsupplied
    rcases hsupplied b i v hv with ⟨x, hx, hgate', _⟩ | ⟨_, _, u, hu, hXu, hwrites⟩
    · exact absurd (hgate' ▸ gate_mem_path x.latch) (h.not_mem_path_of_last hp hx)
    · exact ⟨u, hu, hXu, hwrites⟩

theorem dated_of_last : Dated (deeds s.log.toList) waiting (opened s.log.toList) :=
  h.dated.told fun _ _ _ hX _ _ hr => h.written_of_last hp hX hr

theorem chronicle_of_last : Chronicle (s.told X 0 true).log.toList waiting
    (s.told X 0 true).pending := by
  rw [Store.told, Array.toList_push]
  exact h.chronicle.told_last h.balanced.not_mem_rest hp 0

/-- **The last report to a latch** goes on to what hears of it, with what hangs on the latch. -/
theorem told_last (hup : X.up = some Y) {w : Walker} (hw : w.latch = Y)
    (hentry : w.entry = X.entry) :
    Sound g hg cmp ys all K (w ::ₘ walkers) waiting duties (s.told X 0 true) calls := by
  have hX := h.report_waiting
  have hbalanced := h.balanced
  rw [Multiset.map_cons] at hbalanced
  have hbalanced' : Balanced ((w ::ₘ walkers).map Walker.latch) waiting
      (s.told X 0 true).pending := by
    rw [Multiset.map_cons, hw]
    exact hbalanced.told_last hp hup 0
  have hY : Y ∈ waiting := by
    refine hbalanced'.walking_waiting ?_
    rw [Multiset.map_cons, hw]
    exact Multiset.mem_cons_self _ _
  have hroot : root 0 ∈ waiting := hbalanced'.path_waiting hY (hbalanced'.rooted Y hY)
  refine { lt := h.lt, size := fun b => by rw [Store.buffer_told, h.size], balanced := hbalanced',
           chronicle := h.chronicle_of_last hp, agenda := ?agenda, assigned := ?assigned,
           dated := ?dated, listed := ?listed, room := ?room, running := fun _ => ?running,
           ended := fun hended => absurd hroot hended, cost := ?cost }
  case agenda =>
    rw [h.agenda, plans_report, plans, plans]
    cases hX' : X.entry with
    | none =>
      rw [Multiset.filterMap_cons_none _ _ hX', Multiset.filterMap_cons_none _ _ (hentry.trans hX')]
    | some entry =>
      rw [Multiset.filterMap_cons_some _ _ _ hX',
        Multiset.filterMap_cons_some _ _ _ (hentry.trans hX'), Multiset.add_cons, Multiset.cons_add]
  case assigned =>
    rw [deeds_told, size_pending_told, funext (Store.buffer_told s X 0 true)]
    exact h.assigned_rest
  case dated =>
    rw [deeds_told, opened_told]
    exact h.dated_of_last hp
  case listed =>
    rw [deeds_told, opened_told]
    exact h.listed
  case room =>
    intro e he m hplan q hq
    refine h.room e he m hplan q ?_
    rw [Store.told, hbalanced.pending_set hX (h.duty_waiting he)] at hq
    by_cases heX : e.latch = X
    · rw [if_pos heX] at hq
      rw [heX, hp, hq]
    · rwa [if_neg heX] at hq
  case running => exact not_completed_told (h.running (Multiset.mem_cons_of_mem hroot)) _ _
  case cost =>
    have hcost := h.cost
    rw [Multiset.card_cons] at hcost ⊢
    exact hcost

end

/-- **The last report to the root** is the end of the sort: nobody is left, and nothing to do. -/
theorem told_root (h : Sound g hg cmp ys all K (.report X ::ₘ walkers) waiting duties s calls)
    (hup : X.up = none) (hp : s.pending[X.id]? = some 0) (K' : Nat) : walkers = 0 ∧
    Sound g hg cmp ys all K' 0 0 0
      { (s.told X 0 true).noted .completed with completed := true } calls := by
  have hX := h.report_waiting
  have hrooted := h.balanced.rooted X hX
  obtain rfl : X = root 0 := by
    cases X with
    | root id => exact (List.mem_singleton.1 hrooted).symm
    | part id whole => cases hup
    | trigger id m next => cases hup
  obtain ⟨rest, rfl⟩ := Multiset.exists_cons_of_mem hX
  have hbalanced := h.balanced
  rw [Multiset.map_cons] at hbalanced
  obtain ⟨hwalkers, rfl⟩ := hbalanced.told_root hp
  obtain rfl := Multiset.map_eq_zero.1 hwalkers
  obtain rfl : duties = 0 := Multiset.map_eq_zero.1 h.agenda
  have hlog : ({ (s.told (root 0) 0 true).noted .completed with completed := true } :
      Store α).log.toList = (s.told (root 0) 0 true).log.toList ++ [.completed] :=
    Array.toList_push
  have hdeeds : deeds ((s.told (root 0) 0 true).log.toList ++ [.completed]) =
      deeds s.log.toList := by
    rw [deeds_concat, deeds_told]
    exact List.append_nil _
  have hopened : opened ((s.told (root 0) 0 true).log.toList ++ [.completed]) =
      opened s.log.toList := by
    rw [opened_concat, opened_told]
    exact List.append_nil _
  have hbuffer : ({ (s.told (root 0) 0 true).noted .completed with completed := true } :
      Store α).buffer = s.buffer := by
    funext b
    cases b <;> rfl
  have hfirst := not_completed_told (X := root 0) (h.running (Multiset.mem_cons_self _ _)) 0 true
  have hnone : ∀ {γ : Type} {x : γ} {p : Prop}, x ∈ (0 : Multiset γ) → p :=
    fun hx => absurd hx (Multiset.notMem_zero _)
  refine ⟨rfl,
    { lt := h.lt, size := fun b => by rw [hbuffer, h.size], balanced := ?balanced,
      chronicle := ?chronicle, agenda := rfl, assigned := ?assigned, dated := ?dated,
      listed := ?listed, room := fun _ he => hnone he, running := fun hroot => hnone hroot,
      ended := fun _ => ⟨rfl, _, hlog, hfirst⟩, cost := Nat.zero_le K' }⟩
  case balanced =>
    exact ⟨Multiset.nodup_zero, fun _ hZ => hnone hZ, fun _ hZ => hnone hZ, fun _ _ _ hT => hnone hT,
      fun _ hZ => hnone hZ⟩
  case chronicle =>
    rw [hlog]
    exact (h.chronicle_of_last hp).quiet Chronicle.quiet_completed
  case assigned =>
    rw [hlog, hdeeds, hbuffer]
    exact size_pending_told s (root 0) 0 true ▸ h.assigned_rest
  case dated =>
    rw [hlog, hdeeds, hopened]
    exact h.dated_of_last hp
  case listed =>
    rw [hlog, hdeeds, hopened]
    exact h.listed

end Sound

end ForkJoin.Sorting

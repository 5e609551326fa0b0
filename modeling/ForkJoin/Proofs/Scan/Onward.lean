import ForkJoin.Proofs.Interleaving
import ForkJoin.Proofs.Scan.Moves

/-!
# What a step makes of the phases

Visits find each other by the phases of the nodes. A step changes one phase at most, and then puts
marks there that are never taken away; a visit that has looked at a phase before changes it only if
it is still the one it has seen. Of what goes on in the place of a visit, the first has in hand what
the visit had in hand, or has looked just now, and all others have not looked at any phase:
`Visit.yields_onward`.
-/
namespace ForkJoin.Scan

open Calling Store

variable {α : Type} {f : α → α → α} {plan : Plan} {s s' : Store α}

/-! ## Marks -/

namespace Phase

/-- How many marks are still to be made. -/
def room (p : Phase) : Nat := (!p.awake).toNat + (!p.summed).toNat + (!p.finished).toNat

theorem room_le (p : Phase) : p.room ≤ 3 := by
  rw [room]
  have ha := Bool.toNat_le (!p.awake)
  have hs := Bool.toNat_le (!p.summed)
  have hf := Bool.toNat_le (!p.finished)
  omega

/-- A report that changes the phase leaves a mark. -/
theorem add_eq_or (p : Phase) (g : Gain) : p.add g = p ∨ (p.add g).room < p.room := by
  obtain ⟨awake, summed, finished⟩ := p
  cases summed <;> cases finished <;> cases g <;>
    simp +arith [add, room, Gain.hasSummed, Gain.hasFinished]

/-- A report that changes the phase of a node, or wakes the node, leaves a mark. -/
theorem join_eq_or (p : Phase) (g : Gain) (start : Nat) :
    p.join g start = p ∨ (p.join g start).room < p.room := by
  obtain ⟨awake, summed, finished⟩ := p
  cases hstart : start == 0 <;> cases awake <;> cases summed <;> cases finished <;> cases g <;>
    simp [join, add, room, hstart, Gain.hasSummed, Gain.hasFinished]

theorem room_wake {p : Phase} (h : p.awake = false) : { p with awake := true }.room < p.room := by
  simp [room, h]

end Phase

namespace Store

/-- How many marks are still to be made at all nodes. -/
def room (s : Store α) : Nat :=
  ∑ t ∈ Finset.range s.phases.size, s.phases[t]?.elim 0 Phase.room

theorem room_le (s : Store α) : s.room ≤ 3 * s.phases.size := by
  have hnode : ∀ t ∈ Finset.range s.phases.size, s.phases[t]?.elim 0 Phase.room ≤ 3 := by
    intro t _
    cases s.phases[t]? with
    | none => exact Nat.zero_le 3
    | some p => exact p.room_le
  have hsum := Finset.sum_le_card_nsmul _ _ _ hnode
  rwa [Finset.card_range, Nat.nsmul_eq_mul, Nat.mul_comm] at hsum

theorem room_congr (h : s'.phases = s.phases) : s'.room = s.room := by
  rw [room, room, h]

/-- One phase was replaced, by one with more marks. -/
def Marked (s s' : Store α) : Prop :=
  ∃ t p p', s.phases[t]? = some p ∧ s'.phases = s.phases.setIfInBounds t p' ∧ p'.room < p.room

theorem Marked.room_lt (h : s.Marked s') : s'.room < s.room := by
  obtain ⟨t, p, p', hp, hset, hless⟩ := h
  obtain ⟨ht, -⟩ := Array.getElem?_eq_some_iff.1 hp
  have hself : s'.phases[t]? = some p' := by rw [hset, Array.getElem?_setIfInBounds_self_of_lt ht]
  rw [room, room, show s'.phases.size = s.phases.size by rw [hset, Array.size_setIfInBounds]]
  refine Finset.sum_lt_sum (fun u _ => ?_) ⟨t, Finset.mem_range.2 ht, by rwa [hself, hp]⟩
  by_cases hu : t = u
  · rw [← hu, hself, hp]
    exact hless.le
  · rw [hset, Array.getElem?_setIfInBounds_ne hu]

end Store

/-! ## What an access returns -/

/-- If the action returns from the state `s`, it returns what `Q` says. -/
def Yields {γ : Type} (f : α → α → α) (x : Access α γ) (s : Store α) (Q : γ → Store α → Prop) :
    Prop :=
  ∀ c s' made, Returns f (x.run s) (c, s') made → Q c s'

namespace Yields

variable {γ δ : Type} {x : Access α γ} {Q R : γ → Store α → Prop}

theorem of_run {c : γ} {s₁ : Store α} (h : x.run s = .done (c, s₁)) (hQ : Q c s₁) :
    Yields f x s Q := by
  intro c' s' made hreturns
  rw [h] at hreturns
  cases hreturns
  exact hQ

theorem of_fault (why : Fault) (h : x.run s = .fault why) : Yields f x s Q := by
  intro c' s' made hreturns
  rw [h] at hreturns
  cases hreturns

theorem done {c : γ} (h : Q c s) : Yields f (pure c) s Q := of_run rfl h

theorem mono (h : Yields f x s R) (hRQ : ∀ c s', R c s' → Q c s') : Yields f x s Q :=
  fun c s' made hreturns => hRQ c s' (h c s' made hreturns)

theorem bind {P : δ → Store α → Prop} {k : γ → Access α δ} (h : Yields f x s R)
    (hk : ∀ c s', R c s' → Yields f (k c) s' P) : Yields f (x >>= k) s P := by
  intro d s' made hreturns
  rw [StateT.run_bind] at hreturns
  obtain ⟨⟨c, s₁⟩, before, after, hx, hafter, rfl⟩ := hreturns.of_bind
  exact hk c s₁ (h c s₁ before hx) d s' after hafter

/-! ### What changes nothing -/

theorem demand (why : Fault) (o : Option γ) :
    Yields f (Action.demand why o) s fun c s' => o = some c ∧ s' = s := by
  cases o with
  | none => exact .of_fault why rfl
  | some c => exact .of_run rfl ⟨rfl, rfl⟩

theorem parent (plan : Plan) (t : Nat) :
    Yields f (plan.parent t) s fun p s' => plan.parentOf t = p ∧ s' = s := by
  refine .bind (.demand _ _) ?_
  rintro n _ ⟨hn, rfl⟩
  refine (demand _ _).mono ?_
  rintro p _ ⟨hp, rfl⟩
  rw [Plan.parentOf, hn, Option.bind_some, hp]
  exact ⟨rfl, rfl⟩

theorem children (plan : Plan) (t : Nat) :
    Yields f (plan.children t) s fun _ s' => s' = s := by
  refine .bind (.demand _ _) ?_
  rintro n _ ⟨_, rfl⟩
  exact (demand _ _).mono fun _ _ h => h.2

theorem load (t : Nat) :
    Yields f (Access.load t) s fun phase s' => s.phases[t]? = some phase ∧ s' = s := by
  cases hp : s.phases[t]? with
  | none => exact .of_fault .outOfBounds (by simp only [Access.load, StateT.run, hp])
  | some p => exact .of_run (Access.run_load hp) ⟨rfl, rfl⟩

theorem sum (t : Nat) : Yields f (Access.sum t) s fun _ s' => s' = s := by
  rcases hx : s.sums[t]? with _ | _ | x
  · exact .of_fault .outOfBounds (by simp only [Access.sum, StateT.run, hx])
  · exact .of_fault .emptySlot (by simp only [Access.sum, StateT.run, hx])
  · exact .of_run (Access.run_sum hx) rfl

theorem carry (t : Nat) : Yields f (Access.carry t) s fun _ s' => s' = s := by
  rcases hc : s.carries[t]? with _ | _ | c
  · exact .of_fault .outOfBounds (by simp only [Access.carry, StateT.run, hc])
  · exact .of_fault .emptySlot (by simp only [Access.carry, StateT.run, hc])
  · exact .of_run (Access.run_carry hc) rfl

theorem segment (span : Span) : Yields f (Access.segment span) s fun _ s' => s' = s := by
  cases hxs : span.read? s.cells with
  | none => exact .of_fault .outOfBounds (by simp only [Access.segment, StateT.run, hxs])
  | some xs => exact .of_run (Access.run_segment hxs) rfl

theorem ofCalling (x : Calling α α γ) :
    Yields f (Action.ofCalling x) s fun _ s' => s' = s := by
  intro c s' made hreturns
  rw [Action.run_ofCalling] at hreturns
  obtain ⟨d, before, after, -, hafter, -⟩ := hreturns.of_bind
  cases hafter
  rfl

theorem ask (a b : α) : Yields f (Action.ask a b) s fun _ s' => s' = s := by
  rintro c s' made h
  cases h with
  | call h =>
    cases h
    rfl

/-! ### What changes no phase -/

theorem setSum (t : Nat) (x : Option α) :
    Yields f (Access.setSum t x) s fun _ s' => s'.phases = s.phases := .of_run rfl rfl

theorem setCarry (t : Nat) (x : α) :
    Yields f (Access.setCarry t x) s fun _ s' => s'.phases = s.phases := .of_run rfl rfl

theorem setSegment (span : Span) (xs : List α) :
    Yields f (Access.setSegment span xs) s fun _ s' => s'.phases = s.phases := .of_run rfl rfl

theorem note (e : Event) :
    Yields f (Access.note e) s fun _ s' => s'.phases = s.phases := .of_run rfl rfl

theorem announce :
    Yields f (Access.announce (α := α)) s fun _ s' => s'.phases = s.phases := .of_run rfl rfl

/-! ### What changes phases -/

/-- A phase is replaced only if it is the one that was seen. -/
theorem compareAndSet {t : Nat} {seen next : Phase} (h : next = seen ∨ next.room < seen.room) :
    Yields f (Access.compareAndSet t seen next) s fun _ s' =>
      s'.phases = s.phases ∨ s.phases[t]? = some seen ∧ s.Marked s' := by
  cases hp : s.phases[t]? with
  | none => exact .of_fault .outOfBounds (by simp only [Access.compareAndSet, StateT.run, hp])
  | some p =>
    have hrun := Access.run_compareAndSet hp seen next
    by_cases hseen : p = seen
    · subst hseen
      refine .of_run (hrun.trans (if_pos rfl)) ?_
      rcases h with rfl | hless
      · obtain ⟨ht, hsame⟩ := Array.getElem?_eq_some_iff.1 hp
        exact .inl (by simp [Array.setIfInBounds, ht, ← hsame])
      · exact .inr ⟨rfl, t, p, next, hp, rfl, hless⟩
    · exact .of_run (hrun.trans (if_neg hseen)) (.inl rfl)

theorem wake (t : Nat) : Yields f (Access.wake t) s fun _ s' =>
    s'.phases = s.phases ∨ s.Marked s' := by
  cases hp : s.phases[t]? with
  | none => exact .of_fault .outOfBounds (by simp only [Access.wake, StateT.run, hp])
  | some p =>
    have hrun := Access.run_wake hp
    cases hawake : p.awake with
    | true => exact .of_run (hrun.trans (if_pos hawake)) (.inl rfl)
    | false =>
      refine .of_run (hrun.trans (if_neg (Bool.eq_false_iff.1 hawake))) (.inr ?_)
      exact ⟨t, p, _, hp, rfl, Phase.room_wake hawake⟩

end Yields

/-! ## What a step leaves -/

namespace Visit

variable {v w : Visit α} {left : List (Visit α)}

/-- From a state to the next, with these visits in the place of one: the first has looked at a
phase now or has in hand what the visit had, the others have not looked at any, and the phases have
changed only if the visit was not too late. -/
structure Onward (plan : Plan) (v : Visit α) (s : Store α) (left : List (Visit α)) (s' : Store α) :
    Prop where
  head : ∀ w ∈ left.head?, w.Timely plan s' ∨ w.seen? = v.seen? ∧ s'.phases = s.phases
  fresh : ∀ w ∈ left.tail, w.seen? = none
  phases : s'.phases = s.phases ∨ v.Timely plan s ∧ s.Marked s'

theorem Timely.of_none (h : v.seen? = none) : v.Timely plan s := by
  intro t seen hseen
  rw [h] at hseen
  cases hseen

/-- What a visit has seen is as far out of date as the phases are. -/
theorem timely_congr (hseen : w.seen? = v.seen?) (hphases : s'.phases = s.phases) :
    w.Timely plan s' ↔ v.Timely plan s := by
  simp only [Timely, hseen, hphases]

namespace Onward

theorem of_none (h : ∀ w ∈ left, w.seen? = none)
    (hphases : s'.phases = s.phases ∨ v.Timely plan s ∧ s.Marked s') :
    Onward plan v s left s' where
  head w hw := .inl (.of_none (h w (List.mem_of_mem_head? hw)))
  fresh w hw := h w (List.mem_of_mem_tail hw)
  phases := hphases

/-- A visit that has looked at no phase before is never too late, so it may leave a mark. -/
theorem of_blind (hv : v.seen? = none) (h : ∀ w ∈ left, w.seen? = none)
    (hphases : s'.phases = s.phases ∨ s.Marked s') : Onward plan v s left s' :=
  of_none h (hphases.imp_right fun hmarked => ⟨.of_none hv, hmarked⟩)

/-- A visit may go on with the phase that it has in hand while no phase changes. -/
theorem go_on (hseen : w.seen? = v.seen?) (hphases : s'.phases = s.phases) :
    Onward plan v s [w] s' where
  head u hu := .inr ⟨by rw [← Option.some.inj hu, hseen], hphases⟩
  fresh _ hw := absurd hw List.not_mem_nil
  phases := .inl hphases

/-- A visit may go on with a phase that it has looked at now. -/
theorem look (h : w.Timely plan s) : Onward plan v s [w] s where
  head _ hu := .inl (Option.some.inj hu ▸ h)
  fresh _ hw := absurd hw List.not_mem_nil
  phases := .inl rfl

/-- Who is not too late goes on as one who is not too late. -/
theorem timely (h : Onward plan v s left s') (hv : v.Timely plan s) :
    ∀ w ∈ left, w.Timely plan s' := by
  intro w hw
  cases left with
  | nil => exact absurd hw List.not_mem_nil
  | cons first others =>
    rcases List.mem_cons.1 hw with rfl | hw
    · rcases h.head w rfl with htimely | ⟨hseen, hphases⟩
      · exact htimely
      · exact (timely_congr hseen hphases).2 hv
    · exact .of_none (h.fresh w hw)

end Onward

/-- Who climbs looks at the phase of the parent now. -/
theorem yields_climb (t : Nat) (gain : Gain) :
    Yields f ((climb t gain).step plan) s (Onward plan (climb t gain) s) := by
  refine .bind (.demand _ _) ?_
  rintro n _ ⟨hn, rfl⟩
  cases hp : n.parent with
  | none =>
    dsimp only
    split
    · exact .bind .announce fun _ _ hs => .done (.of_blind rfl (by simp) (.inl hs))
    · exact .done (.of_blind rfl (by simp) (.inl rfl))
  | some p =>
    refine .bind (.load p) ?_
    rintro seen _ ⟨hseen, rfl⟩
    have hparent : plan.parentOf t = p := by
      rw [Plan.parentOf, hn, Option.bind_some, hp, Option.getD_some]
    split
    · exact .done (.of_blind rfl (by simp [seen?]) (.inl rfl))
    · split <;> refine .done (.look ?_) <;> rintro _ _ ⟨⟩ <;> rwa [hparent]

section Reporting

variable {t : Nat} {gain : Gain} {seen : Phase} {x : α}

/-- Whoever leaves a mark at the parent finds the phase there that was seen. -/
theorem timely_of_parent (v : Visit α) {p : Nat} (hv : v.seen? = some (t, seen))
    (hp : plan.parentOf t = p) (h : s.phases[p]? = some seen) : v.Timely plan s := by
  intro t' seen' hseen
  rw [hv] at hseen
  cases hseen
  rwa [hp]

theorem yields_deliver : Yields f ((deliver t gain seen : Visit α).step plan) s
    (Onward plan (deliver t gain seen) s) := by
  refine .bind (.parent plan t) ?_
  rintro p _ ⟨hp, rfl⟩
  refine .bind (.compareAndSet (seen.add_eq_or gain)) fun told s' hphases => ?_
  have hmarks := hphases.imp_right (And.imp_left (timely_of_parent (deliver t gain seen) rfl hp))
  split <;> exact .done (.of_none (by simp [seen?]) hmarks)

/-! What the second of two reports does between its look and its message changes no phase. -/

theorem yields_addLeft : Yields f ((addLeft t gain seen : Visit α).step plan) s
    (Onward plan (addLeft t gain seen) s) := by
  refine .bind (.parent plan t) ?_
  rintro p _ ⟨_, rfl⟩
  refine .bind (.children plan p) ?_
  rintro c _ rfl
  refine .bind (.sum _) ?_
  rintro x _ rfl
  refine .bind (.demand _ _) ?_
  rintro n _ ⟨_, rfl⟩
  split <;> exact .done (.go_on rfl rfl)

theorem yields_addRight : Yields f ((addRight t gain seen x).step plan) s
    (Onward plan (addRight t gain seen x) s) := by
  refine .bind (.parent plan t) ?_
  rintro p _ ⟨_, rfl⟩
  refine .bind (.children plan p) ?_
  rintro c _ rfl
  refine .bind (.sum _) ?_
  rintro y _ rfl
  refine .bind (.ask x y) ?_
  rintro z _ rfl
  exact .done (.go_on rfl rfl)

theorem yields_leaveSum : Yields f ((leaveSum t gain seen x).step plan) s
    (Onward plan (leaveSum t gain seen x) s) := by
  refine .bind (.parent plan t) ?_
  rintro p _ ⟨_, rfl⟩
  exact .bind (.setSum p _) fun _ _ hs => .done (.go_on rfl hs)

theorem yields_publish : Yields f ((publish t gain seen : Visit α).step plan) s
    (Onward plan (publish t gain seen) s) := by
  refine .bind (.parent plan t) ?_
  rintro p _ ⟨hp, rfl⟩
  refine .bind (.demand _ _) ?_
  rintro n _ ⟨_, rfl⟩
  dsimp only
  split
  · exact .done (.of_none (by simp [seen?]) (.inl rfl))
  · refine .bind (.compareAndSet (seen.join_eq_or gain _)) fun told s' hphases => ?_
    have hmarks := hphases.imp_right
      (And.imp_left (timely_of_parent (publish t gain seen) rfl hp))
    split
    · split <;> exact .done (.of_none (by simp [seen?]) hmarks)
    · exact .done (.of_none (by simp [seen?]) hmarks)

end Reporting

/-! What precedes the children of a node is handed on, and they are woken. -/

theorem yields_handDown (t : Nat) :
    Yields f ((handDown t : Visit α).step plan) s (Onward plan (handDown t) s) := by
  refine .bind (.children plan t) ?_
  rintro c _ rfl
  refine .bind (.sum _) ?_
  rintro x _ rfl
  refine .bind (.demand _ _) ?_
  rintro n _ ⟨_, rfl⟩
  split <;> exact .done (.of_blind rfl (by simp [seen?]) (.inl rfl))

theorem yields_addCarry (t : Nat) (x : α) :
    Yields f ((addCarry t x).step plan) s (Onward plan (addCarry t x) s) := by
  refine .bind (.carry t) ?_
  rintro before _ rfl
  refine .bind (.ask before x) ?_
  rintro y _ rfl
  exact .done (.of_blind rfl (by simp [seen?]) (.inl rfl))

theorem yields_giveLeft (t : Nat) (before right : α) :
    Yields f ((giveLeft t before right).step plan) s (Onward plan (giveLeft t before right) s) := by
  refine .bind (.children plan t) ?_
  rintro c _ rfl
  exact .bind (.setCarry _ _) fun _ _ hs => .done (.of_blind rfl (by simp [seen?]) (.inl hs))

theorem yields_giveRight (t : Nat) (right : α) :
    Yields f ((giveRight t right).step plan) s (Onward plan (giveRight t right) s) := by
  refine .bind (.children plan t) ?_
  rintro c _ rfl
  exact .bind (.setCarry _ _) fun _ _ hs => .done (.of_blind rfl (by simp [seen?]) (.inl hs))

theorem yields_wakeRight (t : Nat) :
    Yields f ((wakeRight t : Visit α).step plan) s (Onward plan (wakeRight t) s) := by
  refine .bind (.children plan t) ?_
  rintro c _ rfl
  exact .bind (.wake _) fun _ _ hs => .done (.of_blind rfl (by simp [seen?]) hs)

theorem yields_wakeLeft (t : Nat) (asleep : Bool) :
    Yields f ((wakeLeft t asleep : Visit α).step plan) s (Onward plan (wakeLeft t asleep) s) := by
  refine .bind (.children plan t) ?_
  rintro c _ rfl
  dsimp only
  refine .bind (.wake _) fun woken _ hs => ?_
  split <;> cases asleep <;> exact .done (.of_blind rfl (by simp [seen?]) hs)

/-! A leaf is summed and is swept. -/

theorem yields_enter (t : Nat) :
    Yields f ((enter t : Visit α).step plan) s (Onward plan (enter t) s) := by
  refine .bind (.demand _ _) ?_
  rintro n _ ⟨_, rfl⟩
  split
  · refine .bind (.children plan t) ?_
    rintro c _ rfl
    refine .bind (.load t) ?_
    rintro phase _ ⟨_, rfl⟩
    split <;> exact .done (.of_blind rfl (by simp [seen?]) (.inl rfl))
  · refine .bind (.load t) ?_
    rintro phase _ ⟨_, rfl⟩
    split <;> exact .done (.of_blind rfl (by simp [seen?]) (.inl rfl))

theorem yields_takeOn (t : Nat) (seen : Phase) :
    Yields f ((takeOn t seen : Visit α).step plan) s (Onward plan (takeOn t seen) s) := by
  refine .bind (.demand _ _) ?_
  rintro n _ ⟨_, rfl⟩
  refine .bind (.compareAndSet (seen.add_eq_or _)) fun taken s' hphases => ?_
  have hmarks := hphases.imp_right And.right
  split
  · split
    · exact .done (.of_blind rfl (by simp [seen?]) hmarks)
    · split <;> exact .done (.of_blind rfl (by simp [seen?]) hmarks)
  · exact .done (.of_blind rfl (by simp [seen?]) hmarks)

theorem yields_total (t : Nat) :
    Yields f ((total t : Visit α).step plan) s (Onward plan (total t) s) := by
  refine .bind (.demand _ _) ?_
  rintro n _ ⟨_, rfl⟩
  split
  · exact .done (.of_blind rfl (by simp [seen?]) (.inl rfl))
  · refine .bind (.segment n.span) ?_
    rintro xs _ rfl
    refine .bind (.ofCalling _) ?_
    rintro sum _ rfl
    exact .bind (.note _) fun _ _ hs => .done (.of_blind rfl (by simp [seen?]) (.inl hs))

theorem yields_sweep (t : Nat) (gain : Gain) (before : Option α) :
    Yields f ((sweep t gain before).step plan) s (Onward plan (sweep t gain before) s) := by
  refine .bind (.demand _ _) ?_
  rintro n _ ⟨_, rfl⟩
  refine .bind (.segment n.span) ?_
  rintro xs _ rfl
  refine .bind (.ofCalling _) ?_
  rintro swept _ rfl
  refine .bind (.setSegment _ _) fun _ _ hset => .bind (.note _) fun _ _ hnote => ?_
  exact .done (.of_blind rfl (by simp [seen?]) (.inl (hnote.trans hset)))

/-- **What any step makes of the phases**, and of what its visit has seen of them. -/
theorem yields_onward (v : Visit α) : Yields f (v.step plan) s (Onward plan v s) := by
  cases v with
  | enter t => exact yields_enter t
  | takeOn t seen => exact yields_takeOn t seen
  | total t => exact yields_total t
  | fetch t gain =>
    refine .bind (.carry t) ?_
    rintro before _ rfl
    exact .done (.of_blind rfl (by simp [seen?]) (.inl rfl))
  | sweep t gain before => exact yields_sweep t gain before
  | leave t gain x =>
    exact .bind (.setSum _ _) fun _ _ hs => .done (.of_blind rfl (by simp [seen?]) (.inl hs))
  | climb t gain => exact yields_climb t gain
  | deliver t gain seen => exact yields_deliver
  | addLeft t gain seen => exact yields_addLeft
  | addRight t gain seen x => exact yields_addRight
  | leaveSum t gain seen x => exact yields_leaveSum
  | publish t gain seen => exact yields_publish
  | handDown t => exact yields_handDown t
  | addCarry t x => exact yields_addCarry t x
  | giveLeft t before right => exact yields_giveLeft t before right
  | giveRight t right => exact yields_giveRight t right
  | wakeRight t => exact yields_wakeRight t
  | wakeLeft t asleep => exact yields_wakeLeft t asleep

end Visit

end ForkJoin.Scan

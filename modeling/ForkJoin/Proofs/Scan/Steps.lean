import ForkJoin.Scan.Visit

/-!
# What one step of a visit does

For every point at which a walker can stand, the step it takes from there on a state in which the
phase, slot or segment that it looks at is known. An exchange of a phase is looked at where the
phase is still the one that was seen; a report has a second lemma for where another visit came in
between.
-/
namespace ForkJoin.Scan

variable {α : Type}

namespace Store

def withPhase (s : Store α) (t : Nat) (p : Phase) : Store α :=
  { s with phases := s.phases.setIfInBounds t p }

def withCarry (s : Store α) (t : Nat) (c : α) : Store α :=
  { s with carries := s.carries.setIfInBounds t (some c) }

def withSum (s : Store α) (t : Nat) (x : Option α) : Store α :=
  { s with sums := s.sums.setIfInBounds t x }

def withEvent (s : Store α) (e : Event) : Store α := { s with log := s.log.push e }

/-- The elements from position `i` on are replaced, which the log tells. -/
def withSwept (s : Store α) (t i : Nat) (xs : List α) : Store α :=
  { s with cells := overwrite s.cells i xs, log := s.log.push (.swept t) }

def withEnd (s : Store α) : Store α := { s with completed := true, log := s.log.push .completed }

end Store

namespace Visit

variable {plan : Plan} {t p l r : Nat} {n m nr : Node} {s : Store α} {seen ph : Phase} {gain : Gain}
  {x y c : α}

/-! ## At a node -/

theorem step_enter_leaf (hn : plan.nodes[t]? = some n) (hle : n.span.len ≤ plan.threshold)
    (hp : s.phases[t]? = some ph) : (step plan (enter t)).run s =
      .done (if ph.finished then [] else [takeOn t ph], s) := by
  simp only [step, StateT.run_bind, Plan.run_node hn, Calling.done_bind, if_neg (Nat.not_lt.2 hle),
    Access.run_load hp]
  split <;> rfl

theorem step_enter_split (hn : plan.nodes[t]? = some n) (hlt : plan.threshold < n.span.len)
    (hc : n.children = some (l, r)) (hp : s.phases[t]? = some ph) :
    (step plan (enter t)).run s =
      .done (if ph.awake then [handDown t] else [enter l, enter r], s) := by
  simp only [step, StateT.run_bind, Plan.run_node hn, Calling.done_bind, if_pos hlt,
    Plan.run_children hn hc, Access.run_load hp]
  split <;> rfl

/-! ## At a leaf -/

theorem step_takeOn (hn : plan.nodes[t]? = some n) (hp : s.phases[t]? = some seen) :
    (step plan (takeOn t seen)).run s =
      .done (if Gain.ofLeaf seen n.span.start = .summed then [total t]
          else if n.span.start = 0 then [sweep t (Gain.ofLeaf seen n.span.start) none]
          else [fetch t (Gain.ofLeaf seen n.span.start)],
        s.withPhase t (seen.add (Gain.ofLeaf seen n.span.start))) := by
  simp only [step, StateT.run_bind, Plan.run_node hn, Calling.done_bind,
    Access.run_compareAndSet hp, if_pos]
  split
  · rfl
  · split <;> rfl

theorem step_total_last (hn : plan.nodes[t]? = some n) (hlast : plan.isLast n.span = true) :
    (step plan (total t)).run s = .done ([leave t .summed none], s) := by
  simp only [step, StateT.run_bind, Plan.run_node hn, Calling.done_bind, hlast, if_pos]
  rfl

theorem step_total {xs : Array α} (hn : plan.nodes[t]? = some n)
    (hlast : plan.isLast n.span = false) (hseg : n.span.read? s.cells = some xs) :
    (step plan (total t)).run s = fold xs.toList >>= fun sum =>
      .done ([leave t .summed sum], s.withEvent (.summed t)) := by
  simp only [step, StateT.run_bind, Plan.run_node hn, Calling.done_bind, hlast, Bool.false_eq_true,
    if_false, Access.run_segment hseg, Action.run_ofCalling, Calling.bind_bind]
  rfl

theorem step_fetch (hc : s.carries[t]? = some (some c)) :
    (step plan (fetch t gain)).run s = .done ([sweep t gain (some c)], s) := by
  simp only [step, StateT.run_bind, Access.run_carry hc, Calling.done_bind]
  rfl

theorem step_sweep {before : Option α} {xs : Array α} (hn : plan.nodes[t]? = some n)
    (hseg : n.span.read? s.cells = some xs) : (step plan (sweep t gain before)).run s =
      Scan.sweep before xs.toList >>= fun swept =>
        .done ([leave t gain swept.getLast?], s.withSwept t n.span.start swept) := by
  simp only [step, StateT.run_bind, Plan.run_node hn, Calling.done_bind, Access.run_segment hseg,
    Action.run_ofCalling, Calling.bind_bind]
  rfl

theorem step_leave (x : Option α) :
    (step plan (leave t gain x)).run s = .done ([climb t gain], s.withSum t x) := rfl

/-! ## Up -/

theorem step_climb_root (hn : plan.nodes[t]? = some n) (hroot : n.parent = none) :
    (step plan (climb t gain)).run s =
      .done ([], if gain.hasFinished then s.withEnd else s) := by
  simp only [step, StateT.run_bind, Plan.run_node hn, Calling.done_bind, hroot]
  split <;> rfl

theorem step_climb (hn : plan.nodes[t]? = some n) (hparent : n.parent = some p)
    (hp : s.phases[p]? = some seen) : (step plan (climb t gain)).run s =
      .done ([if seen.finished && gain.hasFinished then climb p gain
        else if seen.summed && gain.hasSummed then addLeft t gain seen
        else deliver t gain seen], s) := by
  simp only [step, StateT.run_bind, Plan.run_node hn, Calling.done_bind, hparent,
    Access.run_load hp]
  split
  · rfl
  · split <;> rfl

theorem step_deliver (hn : plan.nodes[t]? = some n) (hparent : n.parent = some p)
    (hp : s.phases[p]? = some seen) : (step plan (deliver t gain seen)).run s =
      .done ([], s.withPhase p (seen.add gain)) := by
  simp only [step, StateT.run_bind, Plan.run_parent hn hparent, Calling.done_bind,
    Access.run_compareAndSet hp, if_pos]
  rfl

/-- Another visit came in between, so this one looks again. -/
theorem step_deliver_late (hn : plan.nodes[t]? = some n) (hparent : n.parent = some p)
    (hp : s.phases[p]? = some ph) (hne : ph ≠ seen) :
    (step plan (deliver t gain seen)).run s = .done ([climb t gain], s) := by
  simp only [step, StateT.run_bind, Plan.run_parent hn hparent, Calling.done_bind,
    Access.run_compareAndSet hp, if_neg hne]
  rfl

theorem step_addLeft (hn : plan.nodes[t]? = some n) (hparent : n.parent = some p)
    (hm : plan.nodes[p]? = some m) (hc : m.children = some (l, r))
    (hx : s.sums[l]? = some (some x)) (hr : plan.nodes[r]? = some nr) :
    (step plan (addLeft t gain seen)).run s =
      .done (if plan.isLast nr.span then [leaveSum t gain seen x]
        else [addRight t gain seen x], s) := by
  simp only [step, StateT.run_bind, Plan.run_parent hn hparent, Calling.done_bind,
    Plan.run_children hm hc, Access.run_sum hx, Plan.run_node hr]
  split <;> rfl

theorem step_addRight (hn : plan.nodes[t]? = some n) (hparent : n.parent = some p)
    (hm : plan.nodes[p]? = some m) (hc : m.children = some (l, r))
    (hy : s.sums[r]? = some (some y)) : (step plan (addRight t gain seen x)).run s =
      .call x y fun z => .done ([leaveSum t gain seen z], s) := by
  simp only [step, StateT.run_bind, Plan.run_parent hn hparent, Calling.done_bind,
    Plan.run_children hm hc, Access.run_sum hy]
  rfl

theorem step_leaveSum (hn : plan.nodes[t]? = some n) (hparent : n.parent = some p) :
    (step plan (leaveSum t gain seen x)).run s =
      .done ([publish t gain seen], s.withSum p (some x)) := by
  simp only [step, StateT.run_bind, Plan.run_parent hn hparent, Calling.done_bind]
  rfl

/-- The phase of the parent tells of a sum already, so there is nothing to make known. -/
theorem step_publish_known (hn : plan.nodes[t]? = some n) (hparent : n.parent = some p)
    (hm : plan.nodes[p]? = some m) (hnext : seen.join gain m.span.start = seen) :
    (step plan (publish t gain seen)).run s = .done ([climb p .summed], s) := by
  simp only [step, StateT.run_bind, Plan.run_parent hn hparent, Calling.done_bind,
    Plan.run_node hm, if_pos hnext]
  rfl

theorem step_publish (hn : plan.nodes[t]? = some n) (hparent : n.parent = some p)
    (hm : plan.nodes[p]? = some m) (hp : s.phases[p]? = some seen)
    (hnext : seen.join gain m.span.start ≠ seen) : (step plan (publish t gain seen)).run s =
      .done (if (seen.join gain m.span.start).awake && !seen.awake
          then [climb p .summed, enter p] else [climb p .summed],
        s.withPhase p (seen.join gain m.span.start)) := by
  simp only [step, StateT.run_bind, Plan.run_parent hn hparent, Calling.done_bind,
    Plan.run_node hm, if_neg hnext, Access.run_compareAndSet hp, if_pos]
  split <;> rfl

/-- Another visit came in between, so this one looks again, and adds up again. -/
theorem step_publish_late (hn : plan.nodes[t]? = some n) (hparent : n.parent = some p)
    (hm : plan.nodes[p]? = some m) (hp : s.phases[p]? = some ph) (hne : ph ≠ seen)
    (hnext : seen.join gain m.span.start ≠ seen) :
    (step plan (publish t gain seen)).run s = .done ([climb t gain], s) := by
  simp only [step, StateT.run_bind, Plan.run_parent hn hparent, Calling.done_bind,
    Plan.run_node hm, if_neg hnext, Access.run_compareAndSet hp, if_neg hne]
  rfl

/-! ## Down again -/

theorem step_handDown (hn : plan.nodes[t]? = some n) (hc : n.children = some (l, r))
    (hx : s.sums[l]? = some (some x)) : (step plan (handDown t)).run s =
      .done (if n.span.start = 0 then [giveRight t x] else [addCarry t x], s) := by
  simp only [step, StateT.run_bind, Plan.run_children hn hc, Calling.done_bind,
    Access.run_sum hx, Plan.run_node hn]
  split <;> rfl

theorem step_addCarry (hc : s.carries[t]? = some (some c)) :
    (step plan (addCarry t x)).run s = .call c x fun z => .done ([giveLeft t c z], s) := by
  simp only [step, StateT.run_bind, Access.run_carry hc, Calling.done_bind]
  rfl

theorem step_giveLeft (hn : plan.nodes[t]? = some n) (hc : n.children = some (l, r)) :
    (step plan (giveLeft t c x)).run s = .done ([giveRight t x], s.withCarry l c) := by
  simp only [step, StateT.run_bind, Plan.run_children hn hc, Calling.done_bind]
  rfl

theorem step_giveRight (hn : plan.nodes[t]? = some n) (hc : n.children = some (l, r)) :
    (step plan (giveRight t x)).run s = .done ([wakeRight t], s.withCarry r x) := by
  simp only [step, StateT.run_bind, Plan.run_children hn hc, Calling.done_bind]
  rfl

theorem step_wakeRight (hn : plan.nodes[t]? = some n) (hc : n.children = some (l, r))
    (hp : s.phases[r]? = some ph) : (step plan (wakeRight t)).run s =
      if ph.awake then .done ([wakeLeft t false], s)
      else .done ([wakeLeft t true], s.withPhase r { ph with awake := true }) := by
  simp only [step, StateT.run_bind, Plan.run_children hn hc, Calling.done_bind, Access.run_wake hp]
  split <;> rfl

theorem step_wakeLeft {asleep : Bool} (hn : plan.nodes[t]? = some n)
    (hc : n.children = some (l, r)) (hp : s.phases[l]? = some ph) :
    (step plan (wakeLeft t asleep)).run s =
      if ph.awake then .done (if asleep then [enter r] else [], s)
      else .done (enter l :: if asleep then [enter r] else [],
        s.withPhase l { ph with awake := true }) := by
  simp only [step, StateT.run_bind, Plan.run_children hn hc, Calling.done_bind, Access.run_wake hp]
  split <;> rfl

end Visit

end ForkJoin.Scan

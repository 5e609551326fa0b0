import Mathlib.Tactic.Linarith
import ForkJoin.Proofs.Sorting.Counting

/-!
# The last report to a latch

A latch fires once, on the last report to it, however the steps of the parties mingle. What is known
of each step and each run comes from `Conducted`. What is left is that the parties come to an end.
Who fails to take one off looks again, so a report may take long; but unless the step failed for no
reason, the counter was changed by somebody else, and each party can change it only so often.
-/
namespace ForkJoin.Sorting

/-- The moves of a party that are still to come, if the counter stays as it is and no step fails for
no reason. -/
def Party.effort (pending : UInt32) (p : Party) : Nat :=
  match p.arrival with
  | .look => 3
  | .takeOff seen => if seen = pending then 2 else 4
  | .last => p.todo.length
  | .gone => 0

/-- When the counter changes, what a party has seen may have become stale. -/
theorem Party.effort_le (pending pending' : UInt32) (p : Party) :
    p.effort pending' ≤ p.effort pending + 2 := by
  unfold effort
  split
  · omega
  · split <;> split <;> omega
  · omega
  · omega

theorem sum_effort_le (pending pending' : UInt32) (parties : List Party) :
    (parties.map (Party.effort pending')).sum ≤
      (parties.map (Party.effort pending)).sum + 2 * parties.length := by
  induction parties with
  | nil => exact Nat.le_refl 0
  | cons p parties ih =>
    have hp := p.effort_le pending pending'
    simp only [List.map_cons, List.sum_cons, List.length_cons]
    omega

theorem sum_map_set {parties : List Party} {i : Nat} {p : Party} (f : Party → Nat) (p' : Party)
    (hp : parties[i]? = some p) :
    ((parties.set i p').map f).sum + f p = (parties.map f).sum + f p' := by
  induction parties generalizing i with
  | nil => cases hp
  | cons first rest ih =>
    cases i with
    | zero =>
      obtain rfl : first = p := Option.some.inj hp
      simp only [List.set_cons_zero, List.map_cons, List.sum_cons]
      omega
    | succ i =>
      have hrest := ih hp
      simp only [List.set_cons_succ, List.map_cons, List.sum_cons]
      omega

namespace Countdown

variable {latch : Latch} {n N : Nat} {c c' : Countdown} {i : Nat} {todo : List Sequel}

/-- A bound on the moves that are still to come with at most `N` parties, if no more reports are
announced and no step fails for no reason: each change of the counter, of which there are as many
to come as it says, may make stale what all parties have seen. -/
def effort (N : Nat) (c : Countdown) : Nat :=
  (c.parties.map (Party.effort c.pending)).sum + (2 * N + 2) * c.pending.toNat

theorem effort_raise (hN : c.parties.length < N) :
    (c.raise latch i).effort N < c.effort N + 2 * (2 * N + 2) := by
  have hsum := sum_effort_le c.pending (c.pending + 1) c.parties
  have hadd : (c.pending + 1).toNat ≤ c.pending.toNat + 1 := by
    rw [UInt32.toNat_add, UInt32.toNat_one]
    exact Nat.mod_le _ _
  have hmul := Nat.mul_le_mul_left (2 * N + 2) hadd
  rw [Nat.mul_succ] at hmul
  simp only [effort, raise, List.map_append, List.sum_append, List.map_singleton, List.sum_singleton]
  have howing : (Party.owing latch).effort (c.pending + 1) = 3 := rfl
  omega

/-- The counter stays as it is, and one party goes on. -/
theorem effort_arrive (N : Nat) {a : Arrival} (next : Arrival) (hp : c.parties[i]? = some ⟨a, todo⟩) :
    (c.arrive i todo (next, c.pending)).effort N + Party.effort c.pending ⟨a, todo⟩ =
      c.effort N + Party.effort c.pending ⟨next, todo⟩ := by
  have hset := sum_map_set (Party.effort c.pending) ⟨next, todo⟩ hp
  simp only [effort, arrive]
  omega

theorem effort_takeOff {a : Arrival} (hp : c.parties[i]? = some ⟨a, todo⟩) (hpos : c.pending ≠ 0)
    (hN : c.parties.length ≤ N) : (c.arrive i todo (.gone, c.pending - 1)).effort N < c.effort N := by
  have hset := sum_map_set (Party.effort (c.pending - 1)) ⟨.gone, todo⟩ hp
  have hsum := sum_effort_le c.pending (c.pending - 1) c.parties
  have hmul : (2 * N + 2) * c.pending.toNat = (2 * N + 2) * (c.pending - 1).toNat + (2 * N + 2) := by
    rw [← toNat_sub_one hpos, Nat.mul_succ]
  have hgone : Party.effort (c.pending - 1) ⟨.gone, todo⟩ = 0 := rfl
  simp only [effort, arrive]
  omega

theorem effort_follow (N : Nat) {q : Sequel} (hp : c.parties[i]? = some ⟨.last, q :: todo⟩) :
    (c.follow i q todo).effort N + 1 = c.effort N := by
  have hset := sum_map_set (Party.effort c.pending) ⟨.last, todo⟩ hp
  have hlast : Party.effort c.pending ⟨.last, q :: todo⟩ =
      Party.effort c.pending ⟨.last, todo⟩ + 1 := rfl
  simp only [effort, follow]
  omega

/-- **One step** lowers the bound, unless a report is announced or the step fails for no reason. -/
theorem effort_step {mv : Move} (h : Conducted latch n c) (hstep : Step latch c mv c')
    (hN : c'.parties.length ≤ N) :
    c'.effort N < c.effort N + 2 * (2 * N + 2) * raises [mv] + 2 * failures [mv] := by
  cases hstep with
  | raise hp hout =>
    rw [raise, List.length_append] at hN
    simpa [raises, failures, Move.raises, Move.spurious] using effort_raise hN
  | @findZero i _ todo hp hzero =>
    have harrive := effort_arrive N .last hp
    have hlook : Party.effort c.pending ⟨.look, todo⟩ = 3 := rfl
    have htodo : todo = latch.sequels := (h.counts hp rfl).todo
    have hlast : Party.effort c.pending ⟨.last, todo⟩ ≤ 2 := htodo ▸ latch.length_sequels_le
    omega
  | @see i _ todo hp hpos =>
    have harrive := effort_arrive N (.takeOff c.pending) hp
    have hlook : Party.effort c.pending ⟨.look, todo⟩ = 3 := rfl
    have hseen : Party.effort c.pending ⟨.takeOff c.pending, todo⟩ = 2 := if_pos rfl
    omega
  | @fail i spurious seen todo hp hfail =>
    have harrive := effort_arrive N .look hp
    have hlook : Party.effort c.pending ⟨.look, todo⟩ = 3 := rfl
    by_cases hseen : seen = c.pending
    · have hfresh : Party.effort c.pending ⟨.takeOff seen, todo⟩ = 2 := if_pos hseen
      have hfailures : failures [.go i spurious] = 1 := by
        rw [hfail hseen.symm]
        rfl
      omega
    · have hstale : Party.effort c.pending ⟨.takeOff seen, todo⟩ = 4 := if_neg hseen
      omega
  | @takeOff i todo hp =>
    have hpos : c.pending ≠ 0 := fun hzero => (h.counts hp rfl).seen (congrArg Arrival.takeOff hzero)
    rw [arrive, List.length_set] at hN
    have htakeOff := effort_takeOff hp hpos hN
    omega
  | follow hp =>
    have hfollow := effort_follow N hp
    omega

/-! ## Runs -/

theorem length_run {moves : List Move} (hrun : run latch c moves = some c') :
    c'.parties.length = c.parties.length + raises moves := by
  induction moves generalizing c with
  | nil => exact Option.some.inj hrun ▸ rfl
  | cons mv moves ih =>
    obtain ⟨c₁, hmove, hrun⟩ := Option.bind_eq_some_iff.1 hrun
    rw [ih hrun, length_step (step_of_move hmove), Nat.add_assoc, ← raises_cons]

/-- **What every step keeps, every run keeps**, and it does not take longer than the bound allows. -/
theorem conducted_run {moves : List Move} (h : Conducted latch n c)
    (hrun : run latch c moves = some c') (hN : c'.parties.length ≤ N) (hlt : N ≤ UInt32.size) :
    Conducted latch n c' ∧
      moves.length + c'.effort N ≤
        c.effort N + 2 * (2 * N + 2) * raises moves + 2 * failures moves := by
  induction moves generalizing c with
  | nil =>
    obtain rfl := Option.some.inj hrun
    exact ⟨h, Nat.le_of_eq (Nat.zero_add _)⟩
  | cons mv moves ih =>
    obtain ⟨c₁, hmove, hrun⟩ := Option.bind_eq_some_iff.1 hrun
    have hstep := step_of_move hmove
    have hlength := length_run hrun
    have hN₁ : c₁.parties.length ≤ N := by omega
    obtain ⟨hconducted, hmoves⟩ := ih (h.step hstep (Nat.le_trans hN₁ hlt)) hrun
    refine ⟨hconducted, ?_⟩
    have heffort := effort_step h hstep hN₁
    rw [raises_cons, failures_cons, Nat.mul_add (2 * (2 * N + 2)), Nat.mul_add 2 (failures [mv]),
      List.length_cons]
    omega

theorem effort_start (latch : Latch) (n : UInt32) :
    (start latch n).effort N = 3 * (n.toNat + 1) + (2 * N + 2) * n.toNat := by
  have howing : (Party.owing latch).effort n = 3 := rfl
  rw [effort, start, List.map_replicate, howing, List.sum_replicate_nat, Nat.mul_comm]

/-- **A latch fires once, on the last report to it.** Its counter starts at `n`; reports may be
announced by any party whose own report is outstanding, as many as the counter has room for, and the
steps of all parties mingle and fail as they like. Then at any time the counter is what is still to
come besides the last report, so it never goes below zero. One party at most has found it at zero;
all others had taken one off before, each of them once, and all reports had been announced; only
this party does what hangs on the latch, and the others stay gone. When nothing is left to do, there
is such a party, and it has done everything. Until then each party that has something left to do can
go on, and only failures for no reason can make it take any longer than the bound. -/
theorem run_fires_once (latch : Latch) (n : UInt32) (moves : List Move) {c : Countdown}
    (hroom : n.toNat + raises moves < UInt32.size)
    (hrun : run latch (start latch n) moves = some c) :
    c.parties.length = n.toNat + raises moves + 1 ∧
    c.pending.toNat + (takers c.log).length = n.toNat + raises moves ∧
    ((∀ e ∈ c.log, e.counts = true) ∨
      ∃ before i done, Fired latch n.toNat (raises moves) before i done c) ∧
    (c.Over → ∃ before i, Fired latch n.toNat (raises moves) before i latch.sequels c) ∧
    (∀ i p spurious, c.parties[i]? = some p → p.idle = false →
      (c.move latch (.go i spurious)).isSome) ∧
    moves.length ≤ 4 * (c.parties.length * (c.parties.length + 1)) + 2 * failures moves := by
  have hlength : c.parties.length = n.toNat + 1 + raises moves := by
    rw [length_run hrun, start, List.length_replicate]
  obtain ⟨hconducted, hmoves⟩ := conducted_run (.inl (counting_start latch n)) hrun
    (Nat.le_refl _) (by omega)
  have hcount := hconducted.count
  -- how many reports were announced can be told from the number of parties
  have hraised : ∀ {raised before i done}, Fired latch n.toNat raised before i done c →
      raised = raises moves := fun hfired => by
    have hsize := hfired.size
    omega
  refine ⟨by omega, by omega, ?_, fun hover => ?_,
    fun i p spurious hp hidle => isSome_move hp hidle spurious, ?_⟩
  · rcases hconducted with h | ⟨raised, before, i, done, h⟩
    · exact .inl h.log
    · exact .inr ⟨before, i, done, hraised h ▸ h⟩
  · obtain ⟨raised, before, i, h⟩ := hconducted.fired_of_over hover
    exact ⟨before, i, hraised h ▸ h⟩
  · rw [effort_start] at hmoves
    rw [hlength] at hmoves ⊢
    nlinarith

/-- Two parties report to the trigger of a merge. The first has looked at the counter when it
announces a third report, so it has to look again; the second fails once for no reason. -/
theorem run_fires_once_retried : ∃ latch moves c,
    latch = .trigger 1 ⟨.array, ⟨0, 4⟩, ⟨4, 4⟩, 0⟩ (.root 0) ∧
    moves = [.go 0 false, .raise 0, .go 1 false, .go 0 false, .go 1 true, .go 2 false, .go 2 false,
      .go 1 false, .go 1 false, .go 0 false, .go 0 false, .go 0 false] ∧
    (1 : UInt32).toNat + raises moves < UInt32.size ∧
    run latch (start latch 1) moves = some c ∧
    c.log = [.raised 0, .tookOff 2, .tookOff 1, .foundZero 0,
      .did 0 (.merge ⟨.array, ⟨0, 4⟩, ⟨4, 4⟩, 0⟩ (.root 0)), .did 0 (.complete latch)] ∧
    c.Over ∧ ∃ before i, Fired latch (1 : UInt32).toNat (raises moves) before i latch.sequels c := by
  refine ⟨_, _, _, rfl, rfl, by decide, rfl, rfl, by decide, ?_⟩
  exact (run_fires_once _ 1 _ (by decide) (by rfl)).2.2.2.1 (by decide)

end Countdown
end ForkJoin.Sorting

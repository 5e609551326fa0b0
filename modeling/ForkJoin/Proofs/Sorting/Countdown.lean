import Mathlib.Data.List.Basic
import ForkJoin.Sorting.Tasks

/-!
# Countdowns

Many parties report to one latch, and the steps of their arrivals mingle in any order. A party whose
report is still outstanding may announce one more, which a new party owes from then on. Who finds
the counter at zero has brought the last report and does what hangs on the latch, one thing after
the other. All others take one off the counter and are gone.

A `Countdown` is a latch with these parties. In a run of a sort a report is not interrupted, and is
the same as moves of one party that follow each other: `report_alone`. To raise a counter there is
to announce a report here: `raise_announces`.
-/
namespace ForkJoin.Sorting

/-! ## What the last report brings about -/

/-- One thing that the last report to a latch brings about. -/
inductive Sequel where
  /-- The merge that the latch triggers is made, and its end is reported to the next latch. -/
  | merge (m : Merge) (next : Latch)
  /-- The report is passed on to the latch that this one is a part of. -/
  | pass (whole : Latch)
  /-- The latch is not a part of another, and is marked as completed. -/
  | complete (latch : Latch)
  deriving DecidableEq

/-- All that the last report to a latch brings about, in this order. -/
def Latch.sequels : Latch → List Sequel
  | root id => [.complete (root id)]
  | part _ whole => [.pass whole]
  | trigger id m next => [.merge m next, .complete (trigger id m next)]

theorem Latch.length_sequels_le (latch : Latch) : latch.sequels.length ≤ 2 := by
  cases latch <;> simp [sequels]

namespace Sequel

variable {α : Type}

/-- Does one thing, and returns the tasks that were forked. Nobody asks whether a trigger is
completed, so that is not kept. -/
def run (granularity : Nat) : Sequel → Access α (List Task)
  | merge m next => do
    let forked ← Task.mergeHead granularity next m
    let later ← Task.report granularity next
    return later ++ forked
  | pass whole => Task.report granularity whole
  | complete (.root _) => do
    Access.announce
    return []
  | complete _ => return []

/-- Does one thing after the other. -/
def runAll (granularity : Nat) : List Sequel → Access α (List Task)
  | [] => return []
  | q :: todo => do
    let forked ← q.run granularity
    let more ← runAll granularity todo
    return forked ++ more

end Sequel

/-- A report does nothing besides its arrival, unless it is the last. -/
theorem Task.report_eq {α : Type} (granularity : Nat) (latch : Latch) :
    (Task.report granularity latch : Access α (List Task)) = (do
      if ← Access.arrive latch then Sequel.runAll granularity latch.sequels else return []) := by
  cases latch <;> simp [Task.report, Latch.sequels, Sequel.runAll, Sequel.run]

/-! ## Parties and their moves -/

/-- A party that still owes its report. -/
def Arrival.outstanding : Arrival → Bool
  | look | takeOff _ => true
  | last | gone => false

/-- A party that has to report. -/
structure Party where
  arrival : Arrival
  /-- What it has still to do if its report is the last. -/
  todo : List Sequel
  deriving DecidableEq

namespace Party

/-- A party that is about to look at the counter. -/
def owing (latch : Latch) : Party := ⟨.look, latch.sequels⟩

/-- Nothing is left for this party to do. -/
def idle (p : Party) : Bool :=
  match p.arrival with
  | .look | .takeOff _ => false
  | .last => p.todo.isEmpty
  | .gone => true

end Party

/-- What the log of a countdown tells of party `i`. -/
inductive Entry where
  /-- It announced one more report. -/
  | raised (i : Nat)
  /-- It took one off the counter. -/
  | tookOff (i : Nat)
  /-- It found the counter at zero. -/
  | foundZero (i : Nat)
  /-- It did one of the things that the last report brings about. -/
  | did (i : Nat) (q : Sequel)
  deriving DecidableEq

namespace Entry

/-- What there is to tell of a party that has come so far. -/
def ofArrival (i : Nat) : Arrival → List Entry
  | .look | .takeOff _ => []
  | .last => [foundZero i]
  | .gone => [tookOff i]

/-- Tells of a change of the counter. -/
def counts : Entry → Bool
  | raised _ | tookOff _ => true
  | foundZero _ | did _ _ => false

def raiser? : Entry → Option Nat
  | raised i => some i
  | _ => none

def taker? : Entry → Option Nat
  | tookOff i => some i
  | _ => none

end Entry

/-- A latch with all who owe it a report. -/
structure Countdown where
  pending : UInt32
  parties : List Party
  log : List Entry
  deriving DecidableEq

/-- A move of party `i`. -/
inductive Move where
  /-- It announces one more report. -/
  | raise (i : Nat)
  /-- It makes its next step, which may fail for no reason. -/
  | go (i : Nat) (spurious : Bool)
  deriving DecidableEq

namespace Move

def raises : Move → Bool
  | raise _ => true
  | go _ _ => false

def spurious : Move → Bool
  | raise _ => false
  | go _ spurious => spurious

end Move

namespace Countdown

/-- Who announced a report, in this order. -/
def raisers (log : List Entry) : List Nat := log.filterMap Entry.raiser?

/-- Who took one off the counter, in this order. -/
def takers (log : List Entry) : List Nat := log.filterMap Entry.taker?

/-- The number of reports that are announced. -/
def raises (moves : List Move) : Nat := moves.countP Move.raises

/-- The number of steps that are to fail for no reason. -/
def failures (moves : List Move) : Nat := moves.countP Move.spurious

theorem raises_cons (mv : Move) (moves : List Move) :
    raises (mv :: moves) = raises [mv] + raises moves := by
  rw [raises, ← List.singleton_append, List.countP_append, raises, raises]

theorem failures_cons (mv : Move) (moves : List Move) :
    failures (mv :: moves) = failures [mv] + failures moves := by
  rw [failures, ← List.singleton_append, List.countP_append, failures, failures]

/-- The counter is set to `pending`, and one report more than that is owed. -/
def start (latch : Latch) (pending : UInt32) : Countdown where
  pending := pending
  parties := List.replicate (pending.toNat + 1) (Party.owing latch)
  log := []

variable (latch : Latch) (c : Countdown)

/-- Party `i` has announced a report. -/
def raise (i : Nat) : Countdown where
  pending := c.pending + 1
  parties := c.parties ++ [Party.owing latch]
  log := c.log ++ [.raised i]

/-- Party `i` has come so far, and left so much in the counter. -/
def arrive (i : Nat) (todo : List Sequel) (next : Arrival × UInt32) : Countdown where
  pending := next.2
  parties := c.parties.set i ⟨next.1, todo⟩
  log := c.log ++ Entry.ofArrival i next.1

/-- Party `i` has done `q`, and has so much left. -/
def follow (i : Nat) (q : Sequel) (todo : List Sequel) : Countdown where
  pending := c.pending
  parties := c.parties.set i ⟨.last, todo⟩
  log := c.log ++ [.did i q]

/-- What a move leads to, if it can be made. Only a party that still owes its report announces
another one; it may have looked at the counter already. -/
def move : Move → Option Countdown
  | .raise i => do
    let p ← c.parties[i]?
    if p.arrival.outstanding then some (c.raise latch i) else none
  | .go i spurious => do
    let p ← c.parties[i]?
    if p.arrival.outstanding then some (c.arrive i p.todo (p.arrival.step spurious c.pending))
    else if p.arrival = .gone then none
    else match p.todo with
      | [] => none
      | q :: todo => some (c.follow i q todo)

/-- Makes one move after the other. -/
def run (c : Countdown) (moves : List Move) : Option Countdown := moves.foldlM (move latch) c

/-- Nothing is left for anybody to do. -/
def Over : Prop := ∀ p ∈ c.parties, p.idle = true

instance : Decidable c.Over := inferInstanceAs (Decidable (∀ p ∈ c.parties, p.idle = true))

/-- How far party `j` has come. -/
def arrivalOf (j : Nat) : Option Arrival := c.parties[j]?.map Party.arrival

variable {latch c} {c' : Countdown} {i : Nat} {p : Party}

theorem arrivalOf_of_getElem? (hp : c.parties[i]? = some p) : c.arrivalOf i = some p.arrival := by
  rw [arrivalOf, hp, Option.map_some]

theorem lt_of_arrivalOf {a : Arrival} (ha : c.arrivalOf i = some a) : i < c.parties.length := by
  obtain ⟨p, hp, _⟩ := Option.map_eq_some_iff.1 ha
  exact (List.getElem?_eq_some_iff.1 hp).1

theorem arrivalOf_raise (j : Nat) :
    (c.raise latch i).arrivalOf j = if j = c.parties.length then some .look else c.arrivalOf j := by
  rw [arrivalOf, raise]
  by_cases hj : j = c.parties.length
  · rw [if_pos hj, hj, List.getElem?_concat_length]
    rfl
  · rw [if_neg hj, arrivalOf]
    rcases Nat.lt_or_gt_of_ne hj with hlt | hgt
    · rw [List.getElem?_append_left hlt]
    · rw [List.getElem?_eq_none (Nat.le_of_lt hgt), List.getElem?_eq_none]
      rw [List.length_append, List.length_singleton]
      exact hgt

theorem arrivalOf_arrive (hi : i < c.parties.length) (todo : List Sequel) (next : Arrival × UInt32)
    (j : Nat) :
    (c.arrive i todo next).arrivalOf j = if j = i then some next.1 else c.arrivalOf j := by
  rw [arrivalOf, arrive]
  by_cases hji : j = i
  · rw [if_pos hji, hji, List.getElem?_set_self hi, Option.map_some]
  · rw [if_neg hji, List.getElem?_set_ne (Ne.symm hji), arrivalOf]

/-- What may happen in a move. -/
inductive Step (latch : Latch) (c : Countdown) : Move → Countdown → Prop
  | raise {i : Nat} {p : Party} : c.parties[i]? = some p → p.arrival.outstanding = true →
    Step latch c (.raise i) (c.raise latch i)
  | findZero {i : Nat} {spurious : Bool} {todo : List Sequel} :
    c.parties[i]? = some ⟨.look, todo⟩ → c.pending = 0 →
    Step latch c (.go i spurious) (c.arrive i todo (.last, c.pending))
  | see {i : Nat} {spurious : Bool} {todo : List Sequel} :
    c.parties[i]? = some ⟨.look, todo⟩ → c.pending ≠ 0 →
    Step latch c (.go i spurious) (c.arrive i todo (.takeOff c.pending, c.pending))
  | fail {i : Nat} {spurious : Bool} {seen : UInt32} {todo : List Sequel} :
    c.parties[i]? = some ⟨.takeOff seen, todo⟩ → (c.pending = seen → spurious = true) →
    Step latch c (.go i spurious) (c.arrive i todo (.look, c.pending))
  | takeOff {i : Nat} {todo : List Sequel} : c.parties[i]? = some ⟨.takeOff c.pending, todo⟩ →
    Step latch c (.go i false) (c.arrive i todo (.gone, c.pending - 1))
  | follow {i : Nat} {spurious : Bool} {q : Sequel} {todo : List Sequel} :
    c.parties[i]? = some ⟨.last, q :: todo⟩ → Step latch c (.go i spurious) (c.follow i q todo)

theorem step_of_move {mv : Move} (h : c.move latch mv = some c') : Step latch c mv c' := by
  cases mv with
  | raise i =>
    obtain ⟨p, hp, h⟩ := Option.bind_eq_some_iff.1 h
    split at h
    next hout =>
      obtain rfl := Option.some.inj h
      exact .raise hp hout
    next => cases h
  | go i spurious =>
    obtain ⟨⟨a, todo⟩, hp, h⟩ := Option.bind_eq_some_iff.1 h
    cases a with
    | look =>
      obtain rfl := Option.some.inj h
      by_cases hzero : c.pending = 0
      · rw [Arrival.step, if_pos hzero]
        exact .findZero hp hzero
      · rw [Arrival.step, if_neg hzero]
        exact .see hp hzero
    | takeOff seen =>
      obtain rfl := Option.some.inj h
      by_cases hseen : c.pending = seen ∧ spurious = false
      · obtain ⟨rfl, rfl⟩ := hseen
        rw [Arrival.step, if_pos ⟨rfl, rfl⟩]
        exact .takeOff hp
      · rw [Arrival.step, if_neg hseen]
        exact .fail hp fun heq => eq_true_of_ne_false fun hno => hseen ⟨heq, hno⟩
    | last =>
      cases todo with
      | nil => cases h
      | cons q todo =>
        obtain rfl := Option.some.inj h
        exact .follow hp
    | gone => cases h

theorem move_go (latch : Latch) (spurious : Bool) (hp : c.parties[i]? = some p)
    (hout : p.arrival.outstanding = true) :
    c.move latch (.go i spurious) =
      some (c.arrive i p.todo (p.arrival.step spurious c.pending)) := by
  simp [move, hp, hout]

/-- No party waits for another: it can go on as long as it has something to do. -/
theorem isSome_move (hp : c.parties[i]? = some p) (hidle : p.idle = false) (spurious : Bool) :
    (c.move latch (.go i spurious)).isSome := by
  obtain ⟨a, todo⟩ := p
  cases a with
  | look => rw [move_go latch spurious hp rfl]; rfl
  | takeOff seen => rw [move_go latch spurious hp rfl]; rfl
  | last =>
    cases todo with
    | nil => cases hidle
    | cons q todo => simp [move, hp, Arrival.outstanding]
  | gone => cases hidle

@[simp] theorem run_nil : run latch c [] = some c := rfl

@[simp] theorem run_cons (mv : Move) (moves : List Move) :
    run latch c (mv :: moves) = (c.move latch mv).bind fun c' => run latch c' moves := rfl

/-! ## One party that nobody interferes with -/

/-- An arrival that is not interrupted is two moves of a party, or one if the counter is at zero. -/
theorem arrive_alone (latch : Latch) (hp : c.parties[i]? = some p) (hlook : p.arrival = .look) :
    ∃ moves c', run latch c moves = some c' ∧ c'.pending = (Arrival.alone c.pending).2 ∧
      c'.parties = c.parties.set i ⟨(Arrival.alone c.pending).1, p.todo⟩ := by
  have hgo := move_go latch false hp (by rw [hlook]; rfl)
  rw [hlook] at hgo
  by_cases hzero : c.pending = 0
  · have hstep : Arrival.look.step false c.pending = (.last, c.pending) := if_pos hzero
    rw [hstep] at hgo
    refine ⟨[.go i false], _, by rw [run_cons, hgo]; rfl, ?_⟩
    rw [hzero, Arrival.alone_zero]
    exact ⟨rfl, rfl⟩
  · have hstep : Arrival.look.step false c.pending = (.takeOff c.pending, c.pending) := if_neg hzero
    rw [hstep] at hgo
    -- nobody moves in between, so the counter still is what was seen
    have hseen : (c.arrive i p.todo (.takeOff c.pending, c.pending)).parties[i]? =
        some ⟨.takeOff c.pending, p.todo⟩ :=
      List.getElem?_set_self (List.getElem?_eq_some_iff.1 hp).1
    have hgo' := move_go latch false hseen rfl
    refine ⟨[.go i false, .go i false], _,
      by rw [run_cons, hgo, Option.bind_some, run_cons, hgo']; rfl, ?_⟩
    rw [Arrival.alone_of_ne_zero hzero]
    simp [arrive, Arrival.step]

variable {α : Type} {s : Store α}

/-- **A report that is not interrupted is a run of the countdown**: the counter of the latch goes
along with it, and if it turns out to be the last, what follows is what the party has to do. -/
theorem report_alone (granularity : Nat) (hs : s.pending[latch.id]? = some c.pending)
    (hp : c.parties[i]? = some (Party.owing latch)) : ∃ moves c' arrival todo,
      run latch c moves = some c' ∧ c'.parties = c.parties.set i ⟨arrival, todo⟩ ∧
      (Task.report granularity latch).run s =
        (if arrival = .last then Sequel.runAll granularity todo else return []).run { s with
          pending := s.pending.setIfInBounds latch.id c'.pending
          log := s.log.push (.arrived latch (arrival == .last)) } := by
  obtain ⟨moves, c', hrun, hpending, hparties⟩ := arrive_alone latch hp rfl
  refine ⟨moves, c', _, _, hrun, hparties, ?_⟩
  rw [Task.report_eq, StateT.run_bind, Access.run_arrive latch hs, hpending]
  by_cases hzero : c.pending = 0
  · rw [if_pos hzero, hzero, Arrival.alone_zero]
    rfl
  · rw [if_neg hzero, Arrival.alone_of_ne_zero hzero]
    rfl

/-- **To raise the counter of a latch is to announce a report.** -/
theorem raise_announces (hs : s.pending[latch.id]? = some c.pending)
    (h : c.move latch (.raise i) = some c') :
    (Access.raise latch).run s = .done ((), { s with
      pending := s.pending.setIfInBounds latch.id c'.pending
      log := s.log.push (.raised latch) }) := by
  rw [Access.run_raise hs]
  cases step_of_move h with
  | raise => rfl

end Countdown
end ForkJoin.Sorting

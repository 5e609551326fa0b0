import Mathlib.Data.List.Nodup
import Mathlib.Data.List.Perm.Subperm
import ForkJoin.Proofs.Sorting.Balance
import ForkJoin.Proofs.Sorting.Countdown

/-!
# Counting down

Until somebody finds the counter of a latch at zero, the counter and those who have taken one off it
are together all parties but one: `Counting`. So at zero all others are gone, and nobody is left who
could announce a report or come to the latch again: `Fired`. It does not matter how the steps of the
parties mingle, nor which of their steps fail.

That the counter may come down to zero for a while, before more reports are announced, does no harm:
somebody who still owes a report has not looked then, and it is one of these who announces.
-/
namespace ForkJoin.Sorting

/-- A party that has not found the counter at zero. -/
structure Party.Counts (latch : Latch) (p : Party) : Prop where
  todo : p.todo = latch.sequels
  not_last : p.arrival ≠ .last
  /-- It takes one off only where it has seen more than zero. -/
  seen : p.arrival ≠ .takeOff 0

theorem Party.counts_owing (latch : Latch) : (Party.owing latch).Counts latch :=
  ⟨rfl, by simp [owing], by simp [owing]⟩

theorem Party.Counts.gone_of_idle {latch : Latch} {p : Party} (h : p.Counts latch)
    (hidle : p.idle = true) : p.arrival = .gone := by
  obtain ⟨a, todo⟩ := p
  cases a with
  | look => cases hidle
  | takeOff seen => cases hidle
  | last => exact absurd rfl h.not_last
  | gone => rfl

namespace Countdown

/-! ## What the log tells -/

@[simp] theorem raisers_raised (log : List Entry) (i : Nat) :
    raisers (log ++ [.raised i]) = raisers log ++ [i] := List.filterMap_append ..

@[simp] theorem raisers_tookOff (log : List Entry) (i : Nat) :
    raisers (log ++ [.tookOff i]) = raisers log := by
  simp [raisers, Entry.raiser?]

@[simp] theorem takers_raised (log : List Entry) (i : Nat) :
    takers (log ++ [.raised i]) = takers log := by
  simp [takers, Entry.taker?]

@[simp] theorem takers_tookOff (log : List Entry) (i : Nat) :
    takers (log ++ [.tookOff i]) = takers log ++ [i] := List.filterMap_append ..

theorem takers_fired (before : List Entry) (i : Nat) (done : List Sequel) :
    takers (before ++ .foundZero i :: done.map (.did i)) = takers before := by
  have hnone : takers (.foundZero i :: done.map (.did i)) = [] := by
    simp [takers, Entry.taker?]
  rw [takers, List.filterMap_append, ← takers, ← takers, hnone, List.append_nil]

variable {latch : Latch} {n : Nat} {c c' : Countdown} {i j : Nat} {todo : List Sequel}

/-- Nobody has found the counter at zero so far; at the start it was `n`. -/
structure Counting (latch : Latch) (n : Nat) (c : Countdown) : Prop where
  size : c.parties.length = n + (raisers c.log).length + 1
  /-- No count goes below zero, and all parties but one are counted. -/
  count : c.pending.toNat + (takers c.log).length + 1 = c.parties.length
  nodup : (takers c.log).Nodup
  mem_takers : ∀ j, j ∈ takers c.log ↔ c.arrivalOf j = some .gone
  parties : ∀ p ∈ c.parties, p.Counts latch
  log : ∀ e ∈ c.log, e.counts = true

/-- Party `i` has found the counter at zero, when the log was `before` and `raised` reports had been
announced, and has done `done` since then. -/
structure Fired (latch : Latch) (n raised : Nat) (before : List Entry) (i : Nat)
    (done : List Sequel) (c : Countdown) : Prop where
  size : c.parties.length = n + raised + 1
  pending : c.pending = 0
  log : c.log = before ++ .foundZero i :: done.map (.did i)
  counting : ∀ e ∈ before, e.counts = true
  raisers : (raisers before).length = raised
  /-- All others had taken one off before, each of them once. -/
  takers : (takers before).Perm ((List.range c.parties.length).erase i)
  others : ∀ j < c.parties.length, j ≠ i → c.arrivalOf j = some .gone
  party : ∃ todo, c.parties[i]? = some ⟨.last, todo⟩ ∧ done ++ todo = latch.sequels

/-! ## Steps while nobody has found the counter at zero -/

theorem counting_start (latch : Latch) (pending : UInt32) :
    Counting latch pending.toNat (start latch pending) where
  size := List.length_replicate
  count := List.length_replicate.symm
  nodup := List.nodup_nil
  mem_takers j := by
    refine iff_of_false List.not_mem_nil fun hgone => ?_
    obtain ⟨p, hp, hgone⟩ := Option.map_eq_some_iff.1 hgone
    obtain rfl := List.eq_of_mem_replicate (List.mem_of_getElem? hp)
    cases hgone
  parties p hp := List.eq_of_mem_replicate hp ▸ Party.counts_owing latch
  log e he := absurd he List.not_mem_nil

namespace Counting

variable (h : Counting latch n c)

include h

theorem lt_of_mem_takers (hj : j ∈ takers c.log) : j < c.parties.length :=
  lt_of_arrivalOf ((h.mem_takers j).1 hj)

theorem not_mem_takers {p : Party} (hp : c.parties[i]? = some p) (hgone : p.arrival ≠ .gone) :
    i ∉ takers c.log := by
  intro hi
  have hi := (h.mem_takers i).1 hi
  rw [arrivalOf_of_getElem? hp] at hi
  exact hgone (Option.some.inj hi)

/-- A party that does not find the counter at zero keeps what it would have to do. -/
theorem parties_arrive {a : Arrival} {next : Arrival × UInt32}
    (hp : c.parties[i]? = some ⟨a, todo⟩) (hlast : next.1 ≠ .last) (hseen : next.1 ≠ .takeOff 0) :
    ∀ p ∈ (c.arrive i todo next).parties, p.Counts latch := by
  intro p hp'
  rcases List.mem_or_eq_of_mem_set hp' with hp' | rfl
  · exact h.parties p hp'
  · exact ⟨(h.parties _ (List.mem_of_getElem? hp)).todo, hlast, hseen⟩

/-- A report may be announced as long as the counter has room for it. -/
theorem raise (hlt : c.parties.length < UInt32.size) : Counting latch n (c.raise latch i) where
  size := by
    simp only [Countdown.raise, List.length_append, List.length_singleton, raisers_raised, h.size,
      Nat.add_assoc]
  count := by
    have hcount := h.count
    have hle : c.pending.toNat + 1 ≤ c.parties.length := by omega
    have hadd : (c.pending + 1).toNat = c.pending.toNat + 1 := by
      rw [UInt32.toNat_add, UInt32.toNat_one, Nat.mod_eq_of_lt (Nat.lt_of_le_of_lt hle hlt)]
    simp only [Countdown.raise, hadd, takers_raised, List.length_append, List.length_singleton]
    omega
  nodup := (takers_raised _ _).symm ▸ h.nodup
  mem_takers j := by
    rw [arrivalOf_raise, Countdown.raise, takers_raised, h.mem_takers]
    split
    next hj =>
      refine iff_of_false (fun hgone => ?_) (by simp)
      exact absurd (lt_of_arrivalOf hgone) (by omega)
    next => rfl
  parties := List.forall_mem_append.2
    ⟨h.parties, List.forall_mem_singleton.2 (Party.counts_owing latch)⟩
  log := List.forall_mem_append.2 ⟨h.log, List.forall_mem_singleton.2 rfl⟩

/-- A party that is on its way to the counter leaves the log and the counter as they are. -/
theorem arrive {a next : Arrival} (hp : c.parties[i]? = some ⟨a, todo⟩) (ha : a.outstanding = true)
    (hnext : next.outstanding = true) (hseen : next ≠ .takeOff 0) :
    Counting latch n (c.arrive i todo (next, c.pending)) := by
  have hi := (List.getElem?_eq_some_iff.1 hp).1
  have hlog : Entry.ofArrival i next = [] := by
    cases next with
    | look => rfl
    | takeOff seen => rfl
    | last => cases hnext
    | gone => cases hnext
  constructor
  case size => simp only [Countdown.arrive, List.length_set, hlog, List.append_nil, h.size]
  case count => simp only [Countdown.arrive, List.length_set, hlog, List.append_nil, h.count]
  case nodup => simpa only [Countdown.arrive, hlog, List.append_nil] using h.nodup
  case mem_takers =>
    intro j
    rw [arrivalOf_arrive hi, Countdown.arrive, hlog, List.append_nil, h.mem_takers]
    split
    next hj =>
      subst hj
      rw [arrivalOf_of_getElem? hp]
      refine iff_of_false ?_ ?_
      · rintro ⟨⟩
        cases ha
      · rintro ⟨⟩
        cases hnext
    next => rfl
  case parties =>
    refine h.parties_arrive hp ?_ hseen
    rintro rfl
    cases hnext
  case log => simpa only [Countdown.arrive, hlog, List.append_nil] using h.log

/-- A party takes one off. -/
theorem takeOff {a : Arrival} (hp : c.parties[i]? = some ⟨a, todo⟩) (ha : a.outstanding = true)
    (hpos : c.pending ≠ 0) : Counting latch n (c.arrive i todo (.gone, c.pending - 1)) := by
  have hi := (List.getElem?_eq_some_iff.1 hp).1
  have hmem : i ∉ takers c.log := by
    refine h.not_mem_takers hp ?_
    rintro rfl
    cases ha
  constructor
  case size => simp only [Countdown.arrive, Entry.ofArrival, List.length_set, raisers_tookOff, h.size]
  case count =>
    have hcount := h.count
    have hsub := toNat_sub_one hpos
    simp only [Countdown.arrive, Entry.ofArrival, List.length_set, takers_tookOff,
      List.length_append, List.length_singleton]
    omega
  case nodup =>
    simp only [Countdown.arrive, Entry.ofArrival, takers_tookOff]
    exact List.nodup_append.2 ⟨h.nodup, List.nodup_singleton i, fun j hj k hk heq =>
      hmem (List.mem_singleton.1 hk ▸ heq ▸ hj)⟩
  case mem_takers =>
    intro j
    rw [arrivalOf_arrive hi, Countdown.arrive, Entry.ofArrival, takers_tookOff, List.mem_append,
      List.mem_singleton, h.mem_takers]
    split
    next hj => exact iff_of_true (.inr hj) rfl
    next hj => exact or_iff_left hj
  case parties => exact h.parties_arrive hp (by simp) (by simp)
  case log => exact List.forall_mem_append.2 ⟨h.log, List.forall_mem_singleton.2 rfl⟩

/-- At zero all others are gone. -/
theorem takers_perm {p : Party} (hp : c.parties[i]? = some p) (hgone : p.arrival ≠ .gone)
    (hzero : c.pending = 0) : (takers c.log).Perm ((List.range c.parties.length).erase i) := by
  have hi := (List.getElem?_eq_some_iff.1 hp).1
  have hsub : takers c.log ⊆ (List.range c.parties.length).erase i := by
    intro j hj
    have hji : j ≠ i := by
      rintro rfl
      exact h.not_mem_takers hp hgone hj
    exact (List.mem_erase_of_ne hji).2 (List.mem_range.2 (h.lt_of_mem_takers hj))
  refine (h.nodup.subperm hsub).perm_of_length_le ?_
  have hcount := h.count
  rw [hzero, UInt32.toNat_zero, Nat.zero_add] at hcount
  rw [List.length_erase_of_mem (List.mem_range.2 hi), List.length_range]
  omega

/-- The party that finds the counter at zero is the only one left. -/
theorem findZero (hp : c.parties[i]? = some ⟨.look, todo⟩) (hzero : c.pending = 0) :
    Fired latch n (raisers c.log).length c.log i [] (c.arrive i todo (.last, c.pending)) := by
  have hi := (List.getElem?_eq_some_iff.1 hp).1
  have hperm := h.takers_perm hp (by simp) hzero
  constructor
  case size => exact List.length_set.trans h.size
  case pending => exact hzero
  case log => rfl
  case counting => exact h.log
  case raisers => rfl
  case takers => simpa only [Countdown.arrive, List.length_set] using hperm
  case others =>
    intro j hj hji
    rw [arrivalOf_arrive hi, if_neg hji, ← h.mem_takers, hperm.mem_iff, List.mem_erase_of_ne hji,
      List.mem_range]
    simpa only [Countdown.arrive, List.length_set] using hj
  case party =>
    refine ⟨todo, List.getElem?_set_self hi, ?_⟩
    exact (h.parties _ (List.mem_of_getElem? hp)).todo

/-- As long as nobody has found the counter at zero, somebody has still to report. -/
theorem not_over : ¬ c.Over := by
  intro hover
  have hsub : List.range c.parties.length ⊆ takers c.log := by
    intro j hj
    have hp := List.getElem?_eq_getElem (List.mem_range.1 hj)
    have hmem := List.mem_of_getElem? hp
    rw [h.mem_takers, arrivalOf_of_getElem? hp, (h.parties _ hmem).gone_of_idle (hover _ hmem)]
  have hle := (List.nodup_range.subperm hsub).length_le
  rw [List.length_range] at hle
  have hcount := h.count
  omega

end Counting

/-! ## Steps after the last report -/

namespace Fired

variable {raised : Nat} {before : List Entry} {done : List Sequel}
  (h : Fired latch n raised before i done c)

include h

/-- Nobody owes a report any more. -/
theorem not_outstanding {p : Party} (hp : c.parties[j]? = some p) :
    p.arrival.outstanding = false := by
  by_cases hji : j = i
  · obtain ⟨todo, hi, _⟩ := h.party
    rw [hji, hi] at hp
    exact Option.some.inj hp ▸ rfl
  · have hgone := h.others j (List.getElem?_eq_some_iff.1 hp).1 hji
    rw [arrivalOf_of_getElem? hp] at hgone
    rw [Option.some.inj hgone]
    rfl

/-- All that is left is done by the party that found the counter at zero. -/
theorem step {mv : Move} (hstep : Step latch c mv c') :
    ∃ q, Fired latch n raised before i (done ++ [q]) c' := by
  cases hstep with
  | raise hp hout => exact absurd hout (Bool.eq_false_iff.1 (h.not_outstanding hp))
  | findZero hp => exact absurd (h.not_outstanding hp) (by simp [Arrival.outstanding])
  | see hp => exact absurd (h.not_outstanding hp) (by simp [Arrival.outstanding])
  | fail hp => exact absurd (h.not_outstanding hp) (by simp [Arrival.outstanding])
  | takeOff hp => exact absurd (h.not_outstanding hp) (by simp [Arrival.outstanding])
  | @follow k _ q todo hp =>
    obtain rfl : k = i := by
      by_contra hki
      have hgone := h.others k (List.getElem?_eq_some_iff.1 hp).1 hki
      rw [arrivalOf_of_getElem? hp] at hgone
      cases hgone
    have hk := (List.getElem?_eq_some_iff.1 hp).1
    refine ⟨q, ?_⟩
    constructor
    case size => exact List.length_set.trans h.size
    case pending => exact h.pending
    case log => simp [Countdown.follow, h.log]
    case counting => exact h.counting
    case raisers => exact h.raisers
    case takers => simpa only [Countdown.follow, List.length_set] using h.takers
    case others =>
      intro j hj hjk
      rw [arrivalOf, Countdown.follow, List.getElem?_set_ne (Ne.symm hjk), ← arrivalOf]
      exact h.others j (by simpa only [Countdown.follow, List.length_set] using hj) hjk
    case party =>
      obtain ⟨left, hleft, hdone⟩ := h.party
      rw [hp] at hleft
      obtain ⟨_, rfl⟩ := Party.mk.inj (Option.some.inj hleft)
      exact ⟨todo, List.getElem?_set_self hk, by rw [List.append_assoc]; exact hdone⟩

/-- When nothing is left to do, all that hangs on the latch was done. -/
theorem done_eq (hover : c.Over) : done = latch.sequels := by
  obtain ⟨todo, hp, hdone⟩ := h.party
  have hnil : todo = [] := List.isEmpty_iff.1 (hover _ (List.mem_of_getElem? hp))
  rwa [hnil, List.append_nil] at hdone

theorem length_takers : (Countdown.takers c.log).length + 1 = c.parties.length := by
  obtain ⟨todo, hp, _⟩ := h.party
  have hi := (List.getElem?_eq_some_iff.1 hp).1
  rw [h.log, takers_fired, h.takers.length_eq, List.length_erase_of_mem (List.mem_range.2 hi),
    List.length_range, Nat.sub_add_cancel (by omega)]

end Fired

/-! ## Runs -/

/-- Either nobody has found the counter at zero so far, or one party has. -/
def Conducted (latch : Latch) (n : Nat) (c : Countdown) : Prop :=
  Counting latch n c ∨ ∃ raised before i done, Fired latch n raised before i done c

theorem length_step {mv : Move} (hstep : Step latch c mv c') :
    c'.parties.length = c.parties.length + raises [mv] := by
  cases hstep with
  | raise => simp [raise, raises, Move.raises]
  | follow => exact List.length_set
  | findZero | see | fail | takeOff => exact List.length_set

/-- **One step** keeps what is known, as long as the counter has room for the reports. -/
theorem Conducted.step {mv : Move} (h : Conducted latch n c) (hstep : Step latch c mv c')
    (hlt : c'.parties.length ≤ UInt32.size) : Conducted latch n c' := by
  rcases h with h | ⟨raised, before, i, done, h⟩
  · cases hstep with
    | raise hp hout => exact .inl (h.raise (by rwa [Countdown.raise, List.length_append] at hlt))
    | findZero hp hzero => exact .inr ⟨_, _, _, _, h.findZero hp hzero⟩
    | see hp hpos => exact .inl (h.arrive hp rfl rfl (by simpa using hpos))
    | fail hp hseen => exact .inl (h.arrive hp rfl rfl (by simp))
    | takeOff hp =>
      refine .inl (h.takeOff hp rfl fun hzero => ?_)
      exact (h.parties _ (List.mem_of_getElem? hp)).seen (congrArg Arrival.takeOff hzero)
    | follow hp => exact absurd rfl (h.parties _ (List.mem_of_getElem? hp)).not_last
  · obtain ⟨q, h'⟩ := h.step hstep
    exact .inr ⟨raised, before, i, done ++ [q], h'⟩

/-- Whoever still owes a report has not found the counter at zero. -/
theorem Conducted.counts {p : Party} (h : Conducted latch n c) (hp : c.parties[i]? = some p)
    (hout : p.arrival.outstanding = true) : p.Counts latch := by
  rcases h with h | ⟨raised, before, j, done, h⟩
  · exact h.parties p (List.mem_of_getElem? hp)
  · rw [h.not_outstanding hp] at hout
    cases hout

/-- The counter says how many reports are to come besides the last one. -/
theorem Conducted.count (h : Conducted latch n c) :
    c.pending.toNat + (takers c.log).length + 1 = c.parties.length := by
  rcases h with h | ⟨raised, before, i, done, h⟩
  · exact h.count
  · rw [h.pending, UInt32.toNat_zero, Nat.zero_add, h.length_takers]

/-- When nothing is left to do, somebody has found the counter at zero and done all that follows. -/
theorem Conducted.fired_of_over (h : Conducted latch n c) (hover : c.Over) :
    ∃ raised before i, Fired latch n raised before i latch.sequels c := by
  rcases h with h | ⟨raised, before, i, done, h⟩
  · exact absurd hover h.not_over
  · exact ⟨raised, before, i, h.done_eq hover ▸ h⟩

end Countdown
end ForkJoin.Sorting

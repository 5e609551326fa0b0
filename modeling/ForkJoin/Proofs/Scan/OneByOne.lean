import ForkJoin.Proofs.Serial
import ForkJoin.Proofs.Scan.CallsMade
import ForkJoin.Proofs.Scan.Onward

/-!
# One visit at a time

The second of two reports adds up in vain if the phase of the parent changes before this is made
known. While a single worker goes on with one visit, nothing changes but by this visit, and a visit
that waits has not looked at any phase: `Visit.yields_onward`. So every report finds the phase that
it has seen, and each step brings some node nearer to its end, whichever visit is next when one is
over. After 22 steps a node the run has come to its end, with the planned calls and no other ones:
`exists_serial`.
-/
namespace ForkJoin.Scan

open Calling Store

variable {α : Type} {s : Store α}

/-! ## Runs of one worker -/

/-- One worker is at the first of the visits, so far nothing was done in vain, and no more than `k`
steps are still to be made. -/
structure Serial (S : Setting α) (k : Nat) (pool : List (Visit α)) (s : Store α)
    (calls : List (α × α)) : Prop where
  inv : ∃ c, Inv S c pool s calls ∧ (∀ t, (c t).again = false) ∧ S.ahead c + pool.length ≤ k
  timely : ∀ v ∈ pool.head?, v.Timely S.plan s
  fresh : ∀ v ∈ pool.tail, v.seen? = none

/-- The worker takes a step, and if the visit is over, any waiting visit is next. -/
theorem Serial.step {S : Setting α} {k : Nat} {v : Visit α} {waiting : List (Visit α)}
    {calls : List (α × α)} (h : Serial S (k + 1) (v :: waiting) s calls) (i : Nat) :
    ∃ left s' made, Returns S.op ((Visit.step S.plan v).run s) (left, s') made ∧
      Serial S k (Work.resume i left waiting) s' (calls ++ made) := by
  obtain ⟨c, hinv, hagain, hahead⟩ := h.inv
  rw [← Multiset.cons_coe] at hinv
  obtain ⟨left, s', made, hreturns, c', hinv', hstraight, hnears⟩ := hinv.goes
  have hv : v.Timely S.plan s := h.timely v rfl
  have hless := hnears.resolve_right fun hlate => hlate.1 hv
  have honward := v.yields_onward left s' made hreturns
  have hperm := Work.resume_perm i left waiting
  refine ⟨left, s', made, hreturns, ?_⟩
  constructor
  case inv =>
    refine ⟨c', ?_, fun t => Bool.eq_false_iff.2 fun ht => ?_, ?_⟩
    · rwa [Multiset.coe_eq_coe.2 hperm, ← Multiset.coe_add]
    · have := hstraight hv t ht
      rw [hagain t] at this
      cases this
    · rw [hperm.length_eq, List.length_append]
      rw [List.length_cons] at hahead
      omega
  case timely =>
    intro w hw
    exact (Work.mem_head?_resume hw).elim (honward.timely hv w) fun hw => .of_none (h.fresh w hw)
  case fresh =>
    intro w hw
    exact (Work.mem_tail_resume hw).elim (honward.fresh w) (h.fresh w)

section

variable {threshold : Nat} {xs : Array α}

theorem serial_start (op : α → α → α) (ht : 0 < threshold) (hxs : 0 < xs.size) {k : Nat}
    (hk : 22 * (Plan.ofLength threshold ht xs.size).nodes.size < k) :
    Serial (Setting.ofArray op ht hxs) k [.enter 0]
      (Store.start (Plan.ofLength threshold ht xs.size) xs) [] where
  inv := by
    refine ⟨Stage.start, inv_start op ht hxs, fun t => ?_, ?_⟩
    · rcases Stage.start_eq t with ⟨hstart, _⟩ | hstart <;> rw [hstart]
    · have hahead : _ ≤ 22 * (Plan.ofLength threshold ht xs.size).nodes.size :=
        (Setting.ofArray op ht hxs).ahead_le Stage.start
      rw [List.length_singleton]
      omega
  timely v hv := .of_none (by obtain rfl := Option.some.inj hv; rfl)
  fresh v hv := absurd hv List.not_mem_nil

/-- **A run of one worker ends**, whatever visit is next when one is over, and then the planned
calls were made. -/
theorem exists_serial (op : α → α → α) (ht : 0 < threshold) (hxs : 0 < xs.size) (policy : Policy)
    {k : Nat} (hk : 22 * (Plan.ofLength threshold ht xs.size).nodes.size < k) :
    ∃ s calls c, Returns op
      ((Work.serial (Visit.step (Plan.ofLength threshold ht xs.size)) policy k [.enter 0]).run
        (Store.start (Plan.ofLength threshold ht xs.size) xs)) ([], s) calls ∧
      Inv (Setting.ofArray op ht hxs) c 0 s calls ∧
      (calls : Multiset (α × α)) = (Setting.ofArray op ht hxs).planned := by
  obtain ⟨k', pool, s, calls, hreturns, h, hend⟩ :=
    Work.serial_keep (Visit.step (Plan.ofLength threshold ht xs.size)) policy
      (fun k v waiting s calls h => h.step (policy k)) k (serial_start op ht hxs hk)
  obtain ⟨c, hinv, hagain, hahead⟩ := h.inv
  obtain rfl : pool = [] := by
    rcases hend with rfl | hpool
    · exact List.eq_nil_of_length_eq_zero (by omega)
    · exact hpool
  refine ⟨s, calls, c, hreturns, hinv, ?_⟩
  rw [List.nil_append] at hinv
  rw [hinv.calls, Setting.planned]
  refine Finset.sum_congr rfl fun t ht' => ?_
  rw [hinv.calls_end (Finset.mem_range.1 ht'), Setting.retried, hagain t, Bool.false_and,
    Bool.and_false, if_neg Bool.false_ne_true, add_zero]

end

end ForkJoin.Scan

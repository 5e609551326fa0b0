import Mathlib.Tactic.Ring
import ForkJoin.Proofs.Scan.AnyOrder
import ForkJoin.Proofs.Scan.Onward

/-!
# Every run of a scan ends

A step brings some node nearer to its end, unless the visit is too late: the phase of the parent has
changed since it was seen. Then the visit looks again and may have to go back by five steps. But a
phase changes only by marks that stay, three at a node, and each change makes those visits late at
most that have seen a phase, two at a node. So the steps still to be made, with five for each visit
that is late and ten a node for each mark that is missing, become fewer with every step:
`Inv.toCome_lt`. A run under any policy is over within the budget, and has announced its end:
`exists_end`.
-/
namespace ForkJoin.Scan

open Calling Store

variable {α : Type} {plan : Plan} {s s' : Store α}

/-! ## Visits that are late -/

namespace Visit

variable {v w : Visit α} {left : List (Visit α)}

instance (plan : Plan) (s : Store α) (v : Visit α) : Decidable (v.Timely plan s) :=
  match h : v.seen? with
  | none => .isTrue (.of_none h)
  | some (t, seen) => decidable_of_iff (s.phases[plan.parentOf t]? = some seen) (by
      simp only [Timely, h, Option.some.injEq, Prod.mk.injEq]
      constructor
      · rintro hsame t' seen' ⟨rfl, rfl⟩
        exact hsame
      · exact fun htimely => htimely t seen ⟨rfl, rfl⟩)

/-- How many more steps the visit may have to make because it is too late. -/
def lag (plan : Plan) (s : Store α) (v : Visit α) : Nat := if v.Timely plan s then 0 else 5

theorem lag_of_timely (h : v.Timely plan s) : v.lag plan s = 0 := if_pos h

theorem lag_of_late (h : ¬ v.Timely plan s) : v.lag plan s = 5 := if_neg h

theorem lag_le (plan : Plan) (s : Store α) (v : Visit α) : v.lag plan s ≤ 5 := by
  rw [lag]
  split <;> omega

theorem lag_congr (hseen : w.seen? = v.seen?) (hphases : s'.phases = s.phases) :
    w.lag plan s' = v.lag plan s := by
  simp only [lag, timely_congr hseen hphases]

/-- Visits that have not looked at any phase are not late. -/
theorem sum_lag_eq_zero {vs : Multiset (Visit α)} (h : ∀ w ∈ vs, w.seen? = none) :
    (vs.map (lag plan s)).sum = 0 := by
  refine Multiset.sum_eq_zero fun n hn => ?_
  obtain ⟨w, hw, rfl⟩ := Multiset.mem_map.1 hn
  exact lag_of_timely (.of_none (h w hw))

/-- Where no phase has changed, those who go on in the place of a visit are no later than it was. -/
theorem Onward.sum_lag_le (h : Onward plan v s left s') (hphases : s'.phases = s.phases) :
    ((left : Multiset (Visit α)).map (lag plan s')).sum ≤ v.lag plan s := by
  cases left with
  | nil => exact Nat.zero_le _
  | cons first others =>
    rw [← Multiset.cons_coe, Multiset.map_cons, Multiset.sum_cons, sum_lag_eq_zero h.fresh,
      add_zero]
    rcases h.head first rfl with htimely | ⟨hseen, _⟩
    · rw [lag_of_timely htimely]
      exact Nat.zero_le _
    · rw [lag_congr hseen hphases]

end Visit

/-! ## Steps to come -/

/-- A bound for the steps still to be made, however they are interleaved. -/
def Setting.toCome (S : Setting α) (c : Nat → Stage) (pool : Multiset (Visit α)) (s : Store α) :
    Nat :=
  S.ahead c + pool.card + (pool.map (Visit.lag S.plan s)).sum + 10 * S.plan.nodes.size * s.room

/-- A node has two walkers at most. -/
theorem Setting.sum_lag_walkers_le (S : Setting α) (s : Store α) (t : Nat) (a : Stage) :
    ((S.walkers t a).map (Visit.lag S.plan s)).sum ≤ 10 := by
  have hlag : ((S.walkers t a).map (Visit.lag S.plan s)).sum ≤ (S.walkers t a).card * 5 := by
    rw [← Multiset.card_map (Visit.lag S.plan s), ← Nat.nsmul_eq_mul]
    refine Multiset.sum_le_card_nsmul _ _ fun n hn => ?_
    obtain ⟨w, _, rfl⟩ := Multiset.mem_map.1 hn
    exact w.lag_le S.plan s
  have hcard : (S.walkers t a).card ≤ 2 := by
    rw [walkers, Multiset.card_add]
    exact Nat.add_le_add (S.card_upWalker_le t a.up) (S.card_downWalker_le t a.down)
  omega

namespace Inv

variable {S : Setting α} {c : Nat → Stage} {pool rest : Multiset (Visit α)} {v : Visit α}
  {calls : List (α × α)}

/-- Only the walkers of nodes can be late. -/
theorem sum_lag_le (h : Inv S c pool s calls) :
    (pool.map (Visit.lag S.plan s)).sum ≤ 10 * S.plan.nodes.size := by
  obtain ⟨idlers, hidlers, rfl⟩ := h.pool
  have hidle : (idlers.map (Visit.lag S.plan s)).sum = 0 := by
    refine Visit.sum_lag_eq_zero fun w hw => ?_
    obtain ⟨t, _, rfl, _⟩ := hidlers w hw
    rfl
  have hwalkers := Finset.sum_le_card_nsmul (Finset.range S.plan.nodes.size) _ _
    fun t _ => S.sum_lag_walkers_le s t (c t)
  rw [Finset.card_range, Nat.nsmul_eq_mul, Nat.mul_comm] at hwalkers
  have hsum := map_sum
    (Multiset.sumAddMonoidHom.comp (Multiset.mapAddMonoidHom (Visit.lag S.plan s)))
    (fun t => S.walkers t (c t)) (Finset.range S.plan.nodes.size)
  rw [Multiset.map_add, Multiset.sum_add, hidle, zero_add]
  exact hsum.trans_le hwalkers

/-- **Whichever live visit takes a step, there are fewer to come.** -/
theorem toCome_lt (h : Inv S c (v ::ₘ rest) s calls) : ∃ left s' made,
    Returns S.op ((Visit.step S.plan v).run s) (left, s') made ∧
      ∃ c', Inv S c' ((left : Multiset (Visit α)) + rest) s' (calls ++ made) ∧
        S.toCome c' ((left : Multiset (Visit α)) + rest) s' < S.toCome c (v ::ₘ rest) s := by
  obtain ⟨left, s', made, hreturns, c', h', -, hnears⟩ := h.goes
  refine ⟨left, s', made, hreturns, c', h', ?_⟩
  have honward := v.yields_onward left s' made hreturns
  have hcard : (left : Multiset (Visit α)).card = left.length := Multiset.coe_card left
  simp only [Setting.toCome, Multiset.map_add, Multiset.sum_add, Multiset.card_add, hcard,
    Multiset.map_cons, Multiset.sum_cons, Multiset.card_cons]
  rcases honward.phases with hphases | ⟨htimely, hmarked⟩
  · have hrest : rest.map (Visit.lag S.plan s') = rest.map (Visit.lag S.plan s) :=
      Multiset.map_congr rfl fun w _ => Visit.lag_congr rfl hphases
    rw [room_congr hphases, hrest]
    rcases hnears with hless | ⟨hlate, hnone, hless⟩
    · have hlag := honward.sum_lag_le hphases
      omega
    · rw [Visit.lag_of_late hlate, Visit.sum_lag_eq_zero hnone]
      omega
  · -- a new mark makes up for all who are late because of it
    have hless := hnears.resolve_right fun hlate => hlate.1 htimely
    have hlag := h'.sum_lag_le
    rw [Multiset.map_add, Multiset.sum_add] at hlag
    have hroom := Nat.mul_le_mul_left (10 * S.plan.nodes.size) hmarked.room_lt
    rw [Nat.mul_succ] at hroom
    omega

end Inv

/-! ## Runs -/

section

variable {threshold : Nat} {xs : Array α}

/-- At the start there are no more steps to come than the budget has. -/
theorem toCome_start (op : α → α → α) (ht : 0 < threshold) (hxs : 0 < xs.size) :
    (Setting.ofArray op ht hxs).toCome Stage.start {.enter 0}
      (Store.start (Plan.ofLength threshold ht xs.size) xs) ≤
        (Plan.ofLength threshold ht xs.size).budget := by
  have hahead := (Setting.ofArray op ht hxs).ahead_le Stage.start
  have hplan : (Setting.ofArray op ht hxs).plan = Plan.ofLength threshold ht xs.size := rfl
  have hsize : (Store.start (Plan.ofLength threshold ht xs.size) xs).phases.size =
      (Plan.ofLength threshold ht xs.size).nodes.size := Array.size_replicate
  have hroom := (Store.start (Plan.ofLength threshold ht xs.size) xs).room_le
  rw [hsize] at hroom
  rw [Setting.toCome, Multiset.card_singleton, Visit.sum_lag_eq_zero (by simp [Visit.seen?]), hplan,
    Plan.budget]
  rw [hplan] at hahead
  generalize (Plan.ofLength threshold ht xs.size).nodes.size = n at hahead hroom ⊢
  have hmarks := Nat.mul_le_mul_left (10 * n) hroom
  have hsquare : 64 * ((n + 1) * (n + 1)) = 10 * n * (3 * n) + (34 * (n * n) + 128 * n + 64) := by
    ring
  omega

/-- The invariant holds, with so many steps to come. -/
def Coming (S : Setting α) (k : Nat) (pool : Multiset (Visit α)) (s : Store α)
    (calls : List (α × α)) : Prop :=
  ∃ c, Inv S c pool s calls ∧ S.toCome c pool s ≤ k

theorem Coming.leads (S : Setting α) (k : Nat) :
    Work.Leads (Visit.step S.plan) S.op
      (fun pool (s : Unit → Store α) calls => Coming S (k + 1) pool (s ()) calls)
      fun pool s calls => Coming S k pool (s ()) calls := by
  rintro v rest s calls ⟨c, h, hk⟩
  obtain ⟨left, s', made, hreturns, c', h', hless⟩ := h.toCome_lt
  exact ⟨left, fun _ => s', made, fun _ => hreturns, c', h', Nat.le_of_lt_succ (hless.trans_le hk)⟩

/-- **A run of the visits ends under any policy**, and announces its end. -/
theorem exists_end (op : α → α → α) (ht : 0 < threshold) (hxs : 0 < xs.size) (policy : Policy) :
    ∃ s calls c,
      Returns op (((Plan.ofLength threshold ht xs.size).run policy).run
        (Store.start (Plan.ofLength threshold ht xs.size) xs)) ((), s) calls ∧
      Inv (Setting.ofArray op ht hxs) c 0 s calls := by
  have hstart : Coming (Setting.ofArray op ht hxs) (Plan.ofLength threshold ht xs.size).budget
      (([.enter 0] : List (Visit α)) : Multiset (Visit α))
      (Store.start (Plan.ofLength threshold ht xs.size) xs) [] :=
    ⟨_, inv_start op ht hxs, toCome_start op ht hxs⟩
  obtain ⟨k, pool, s, calls, hreturns, ⟨c, h, hk⟩, hend⟩ := Work.steps_lead
    (I := fun k pool s calls => Coming (Setting.ofArray op ht hxs) k pool (s ()) calls)
    (Coming.leads (Setting.ofArray op ht hxs)) policy _ (S := fun _ => _) hstart
  obtain rfl : pool = [] := by
    rcases hend with rfl | hend
    · rw [Setting.toCome, Multiset.coe_card] at hk
      exact List.eq_nil_of_length_eq_zero (by omega)
    · exact hend
  have hcompleted : (s ()).completed = true := by
    rw [((h.node 0 (Setting.ofArray op ht hxs).family.size_pos).root rfl).done, h.end_of_empty]
    rfl
  refine ⟨s (), calls, c, ?_, h⟩
  simp only [Plan.run, Work.drain, StateT.run_bind, Calling.bind_bind]
  refine (hreturns ()).bind_done ?_
  simp only [List.isEmpty_nil, if_true, StateT.run_pure, Calling.pure_eq, Calling.done_bind,
    StateT.run_get, hcompleted]

end

/-! ## Operands -/

namespace Setting

variable {S : Setting α} {P : α → Prop} {t : Nat} {a : Stage}

/-- What holds of the elements, and of sums of what it holds of, holds of all that is added up. -/
theorem worth_on (hP : ∀ a b, P a → P b → P (S.op a b)) (helem : ∀ i, P (S.elem i))
    (g : Grouping) : P (S.worth g) := by
  induction g with
  | elem i => exact helem i
  | join left right ihl ihr => exact hP _ _ ihl ihr

theorem carry_on (hP : ∀ a b, P a → P b → P (S.op a b)) (helem : ∀ i, P (S.elem i)) :
    P (S.carry t) := by
  rw [carry]
  cases S.before t with
  | none => exact helem 0
  | some g => exact S.worth_on hP helem g

theorem calls_on (hP : ∀ a b, P a → P b → P (S.op a b)) (helem : ∀ i, P (S.elem i)) :
    ∀ call ∈ S.calls t a, P call.1 ∧ P call.2 := by
  have hworth := S.worth_on hP helem
  have hadditions : ∀ gs : List Grouping, ∀ call ∈ (additions .join gs).map
      (Prod.map S.worth S.worth), P call.1 ∧ P call.2 := by
    intro gs call hcall
    obtain ⟨g, _, rfl⟩ := List.mem_map.1 hcall
    exact ⟨hworth g.1, hworth g.2⟩
  intro call hcall
  rw [calls] at hcall
  split at hcall
  · rcases Multiset.mem_add.1 hcall with hcall | hcall
    · split at hcall
      · exact hadditions _ call hcall
      · exact absurd hcall (Multiset.notMem_zero call)
    · split at hcall
      · exact hadditions _ call hcall
      · exact absurd hcall (Multiset.notMem_zero call)
  · rcases Multiset.mem_add.1 hcall with hcall | hcall
    · split at hcall
      · rw [Multiset.mem_singleton.1 hcall]
        exact ⟨S.carry_on hP helem, hworth _⟩
      · exact absurd hcall (Multiset.notMem_zero call)
    · rw [Multiset.eq_of_mem_replicate hcall]
      exact ⟨hworth _, hworth _⟩

end Setting

/-- **Under any policy a scan leaves the values of the groupings.** Its calls may differ, but their
operands are elements and sums. -/
theorem exists_scanArrayUnder {op : α → α → α} {P : α → Prop}
    (hP : ∀ a b, P a → P b → P (op a b)) {threshold : Nat} (ht : 0 < threshold) {xs : Array α}
    (hxs : ∀ x ∈ xs.toList, P x) {ys : List α} (hys : Bracketed op threshold ht xs.toList ys)
    (policy : Policy) : ∃ calls,
      Returns op (scanArrayUnder policy threshold ht xs) ys.toArray calls ∧
        ∀ call ∈ calls, P call.1 ∧ P call.2 := by
  by_cases hempty : xs.isEmpty = true
  · have hsize : xs.size = 0 := by simpa using hempty
    obtain rfl : ys = [] := List.eq_nil_of_length_eq_zero (hys.length.trans hsize)
    rw [scanArrayUnder, if_pos hempty, Array.eq_empty_of_size_eq_zero hsize]
    exact ⟨[], .done, fun call hcall => absurd hcall List.not_mem_nil⟩
  · have hpos : 0 < xs.size := Nat.pos_of_ne_zero (by simpa using hempty)
    have helem : ∀ i, P ((Setting.ofArray op ht hpos).elem i) := by
      intro i
      change P (xs[i]?.getD xs[0])
      cases h : xs[i]? with
      | none => exact hxs _ (Array.mem_toList_iff.2 (Array.getElem_mem hpos))
      | some x => exact hxs x (Array.mem_toList_iff.2 (Array.mem_of_getElem? h))
    obtain ⟨s, calls, c, hreturns, h⟩ := exists_end op ht hpos policy
    have hcells : s.cells = ys.toArray := by
      rw [← Array.toList_inj, h.cells_of_end h.end_of_empty]
      exact Setting.result_ofArray hys
    refine ⟨calls, ?_, fun call hcall => ?_⟩
    · rw [scanArrayUnder, if_neg hempty]
      exact hreturns.bind_done (congrArg Calling.done hcells)
    · have hmem := h.calls ▸ Multiset.mem_coe.2 hcall
      obtain ⟨t, _, hcall⟩ := Multiset.mem_sum.1 hmem
      exact (Setting.ofArray op ht hpos).calls_on hP helem call hcall

end ForkJoin.Scan

import ForkJoin.Proofs.Scan.AnyOrder

/-!
# Which calls a scan makes

`Setting.planned` is the calls of a scan, each with its operands: the sums of the children of a node
are added up unless the window ends there, what precedes a node and the sum of its left child are
added up unless the window starts there, and a leaf is folded, unless it lies at an end of the window,
and swept.

Every run makes these calls, and no run makes another one. But the second of two reports adds up
before it makes this known, and adds up again if the phase has changed in between. That can happen
once at a node that starts with the window and whose left child is cut, so the number of calls does
depend on the policy: `calls_of_steps` and `calls_vary`.
-/
namespace ForkJoin.Scan

open Calling Store

variable {α ε : Type}

namespace Setting

variable (S : Setting α) (t : Nat)

/-- The sums of the children of a node are added up. -/
def joinCall : α × α := (S.sum (S.plan.kids t).1, S.sum (S.plan.kids t).2)

/-- What precedes a node and the sum of its left child are added up. -/
def carryCall : α × α := (S.carry t, S.sum (S.plan.kids t).1)

/-- The calls for a node. -/
def nodeCalls : Multiset (α × α) :=
  if S.plan.IsLeaf t then
    (if S.plan.isFirst t || S.plan.isLast (S.plan.span t) then 0 else ↑(S.foldCalls t)) +
      ↑(S.sweepCalls t)
  else (if S.plan.isFirst t then 0 else {S.carryCall t}) +
    if S.plan.isLast (S.plan.span t) then 0 else {S.joinCall t}

/-- The calls for all nodes. -/
def planned : Multiset (α × α) := ∑ t ∈ Finset.range S.plan.nodes.size, S.nodeCalls t

/-- The sums of the children of a node may be added up twice. -/
def Retries : Prop :=
  ∃ l r, S.plan.Cut t l r ∧ S.plan.isFirst t = true ∧ ¬ S.plan.IsLeaf l ∧
    S.plan.isLast (S.plan.span r) = false

end Setting

namespace Setting

variable {S : Setting α} {t : Nat} {a : Stage}

/-- The sums of the children were added up once in vain, where they are added up at all. -/
def retried (S : Setting α) (t : Nat) (a : Stage) : Bool :=
  !decide (S.plan.IsLeaf t) && (a.again && !S.plan.isLast (S.plan.span t))

/-- At any stage no more calls were made for a node than planned, but for the one repeat. -/
theorem calls_le : S.calls t a ≤ S.nodeCalls t + if S.retried t a then {S.joinCall t} else 0 := by
  rw [calls, nodeCalls, retried]
  by_cases hleaf : S.plan.IsLeaf t
  · rw [if_pos hleaf, if_pos hleaf, decide_eq_true hleaf, leafCalls, Plan.summed]
    refine le_trans (add_le_add ?_ ?_) (Multiset.le_add_right _ _)
    · cases S.plan.isFirst t <;> cases S.plan.isLast (S.plan.span t) <;> cases a.up.worked <;> simp
    · split <;> simp
  · rw [if_neg hleaf, if_neg hleaf, decide_eq_false hleaf, cutCalls, joins, add_assoc]
    refine add_le_add ?_ ?_
    · cases S.plan.isFirst t <;> cases a.down.added <;> simp [carryCall]
    · cases S.plan.isLast (S.plan.span t) <;> cases a.joined <;> cases a.again <;>
        simp [joinCall, Multiset.replicate_succ]

/-- At the end all calls for a leaf are made. -/
theorem calls_leaf_end (hleaf : S.plan.IsLeaf t) (hup : a.up = .told) (hdown : a.down = .told) :
    S.calls t a = S.nodeCalls t + if S.retried t a then {S.joinCall t} else 0 := by
  have hswept : S.plan.swept t a = true := by
    rw [Plan.swept, hup, hdown]
    split <;> rfl
  rw [calls, nodeCalls, retried, if_pos hleaf, if_pos hleaf, decide_eq_true hleaf, leafCalls, hswept,
    Plan.summed, hup]
  cases S.plan.isFirst t <;> cases S.plan.isLast (S.plan.span t) <;> simp [Up.worked]

/-- At the end all calls for a node that is cut are made. -/
theorem calls_cut_end (hcut : ¬ S.plan.IsLeaf t) (hdown : a.down = .told) (hjoined : a.joined = true) :
    S.calls t a = S.nodeCalls t + if S.retried t a then {S.joinCall t} else 0 := by
  rw [calls, nodeCalls, retried, if_neg hcut, if_neg hcut, decide_eq_false hcut, cutCalls, joins,
    hdown, hjoined, add_assoc]
  congr 1
  · cases S.plan.isFirst t <;> simp [Down.added, carryCall]
  · cases S.plan.isLast (S.plan.span t) <;> cases a.again <;>
      simp [joinCall, Multiset.replicate_succ]

end Setting

namespace Inv

variable {S : Setting α} {c : Nat → Stage} {s : Store α} {pool : Multiset (Visit α)}
  {calls : List (α × α)} {t : Nat}

theorem retries_of_retried (h : Inv S c pool s calls) (ht : t < S.plan.nodes.size)
    (hretried : S.retried t (c t) = true) : S.Retries t := by
  simp only [Setting.retried, Bool.and_eq_true, Bool.not_eq_true', decide_eq_false_iff_not]
    at hretried
  obtain ⟨hleaf, hagain, hlast⟩ := hretried
  obtain ⟨l, r, hcut⟩ := S.family.exists_cut ht hleaf
  have hlinked := (h.cut hcut).linked
  rw [hcut.kids_eq] at hlinked
  obtain ⟨hfirst, hleft, _⟩ := hlinked.again hagain
  exact ⟨l, r, hcut, hfirst, of_decide_eq_false hleft, hcut.isLast_right.trans hlast⟩

/-- The calls for a node are made once its second pass is over. -/
theorem calls_end (h : Inv S c 0 s calls) (ht : t < S.plan.nodes.size) :
    S.calls t (c t) = S.nodeCalls t + if S.retried t (c t) then {S.joinCall t} else 0 := by
  have hdown := h.down_told h.end_of_empty ht
  by_cases hleaf : S.plan.IsLeaf t
  · exact S.calls_leaf_end hleaf (h.up_told ht) hdown
  · obtain ⟨l, r, hcut⟩ := S.family.exists_cut ht hleaf
    refine S.calls_cut_end hleaf hdown ?_
    have hl : (S.plan.face c l).up = .told := Up.face_eq_told.2 (h.up_told hcut.left_lt_size)
    have hr : (S.plan.face c r).up = .told := Up.face_eq_told.2 (h.up_told hcut.right_lt_size)
    rw [(h.cut hcut).linked.joined, hl, hr]
    rfl

end Inv

/-- **The calls of a scan.** However many steps were taken under whatever policy, no other calls are
made than the planned ones, each once, and repeats of the addition at nodes that may have to retry,
each once. When no visit is live any more, all planned calls are made. -/
theorem calls_of_steps (op : α → α → α) {threshold : Nat} (ht : 0 < threshold) {xs : Array α}
    (hxs : 0 < xs.size) (policy : Policy) (k : Nat) : ∃ pool s calls,
      ((Work.steps (Visit.step (Plan.ofLength threshold ht xs.size)) policy k [.enter 0]).run
          (Store.start (Plan.ofLength threshold ht xs.size) xs)).run
        (fun a b => (.ok (op a b) : Except ε α)) = .ok ⟨(pool, s), calls⟩ ∧
      ∃ twice : Finset Nat, (∀ t ∈ twice, (Setting.ofArray op ht hxs).Retries t) ∧
        (calls.toList : Multiset (α × α)) ≤ (Setting.ofArray op ht hxs).planned +
          ∑ t ∈ twice, {(Setting.ofArray op ht hxs).joinCall t} ∧
        (pool = [] → (calls.toList : Multiset (α × α)) = (Setting.ofArray op ht hxs).planned +
          ∑ t ∈ twice, {(Setting.ofArray op ht hxs).joinCall t}) := by
  obtain ⟨pool, s, calls, c, hrun, h⟩ := exists_inv (ε := ε) op ht hxs policy k
  generalize Setting.ofArray op ht hxs = S at h ⊢
  have hsum : ∑ t ∈ Finset.range S.plan.nodes.size,
      (S.nodeCalls t + if S.retried t (c t) then {S.joinCall t} else 0) = S.planned +
        ∑ t ∈ (Finset.range S.plan.nodes.size).filter fun t => S.retried t (c t), {S.joinCall t} := by
    rw [Finset.sum_add_distrib, Finset.sum_filter, Setting.planned]
  refine ⟨pool, s, calls.toArray, hrun,
    (Finset.range S.plan.nodes.size).filter fun t => S.retried t (c t), fun t ht' => ?_, ?_, ?_⟩
  · obtain ⟨hsize, hretried⟩ := Finset.mem_filter.1 ht'
    exact h.retries_of_retried (Finset.mem_range.1 hsize) hretried
  · rw [← hsum]
    exact h.calls.le.trans (Finset.sum_le_sum fun t _ => S.calls_le)
  · rintro rfl
    rw [← hsum]
    exact h.calls.trans (Finset.sum_congr rfl fun t ht' => h.calls_end (Finset.mem_range.1 ht'))

/-- Eight lists are concatenated, with the live visits taken in a changing order. -/
theorem calls_of_steps_eight : 0 < 1 ∧ 0 < #[[0], [1], [2], [3], [4], [5], [6], [7]].size ∧
    ∃ (hxs : 0 < #[[0], [1], [2], [3], [4], [5], [6], [7]].size) (s : Store (List Nat))
      (calls : Array (List Nat × List Nat)) (twice : Finset Nat),
    ((Work.steps (Visit.step (Plan.ofLength 1 Nat.one_pos 8)) (fun k => k / 8) 200 [.enter 0]).run
        (Store.start (Plan.ofLength 1 Nat.one_pos 8) #[[0], [1], [2], [3], [4], [5], [6], [7]])).run
      (fun a b => (.ok (a ++ b) : Except String (List Nat))) = .ok ⟨([], s), calls⟩ ∧
    (∀ t ∈ twice, (Setting.ofArray (fun a b => a ++ b) Nat.one_pos hxs).Retries t) ∧
    (calls.toList : Multiset (List Nat × List Nat)) =
      (Setting.ofArray (fun a b => a ++ b) Nat.one_pos hxs).planned +
        ∑ t ∈ twice, {(Setting.ofArray (fun a b => a ++ b) Nat.one_pos hxs).joinCall t} := by
  have hempty : (((Work.steps (Visit.step (Plan.ofLength 1 Nat.one_pos 8)) (fun k => k / 8) 200
      [.enter 0]).run (Store.start (Plan.ofLength 1 Nat.one_pos 8)
        #[[0], [1], [2], [3], [4], [5], [6], [7]])).run
      (fun a b => (.ok (a ++ b) : Except String (List Nat)))).toOption.map
    (fun r => r.result.1.length) = some 0 := by
    decide +kernel
  have hxs : 0 < #[[0], [1], [2], [3], [4], [5], [6], [7]].size := by decide
  obtain ⟨pool, s, calls, hrun, twice, htwice, _, hcalls⟩ :=
    calls_of_steps (ε := String) (fun a b : List Nat => a ++ b) Nat.one_pos hxs (fun k => k / 8) 200
  obtain ⟨report, hreport, hpool⟩ := exists_report hempty
  obtain rfl := Except.ok.inj (hrun.symm.trans hreport)
  obtain rfl : pool = [] := List.eq_nil_of_length_eq_zero hpool
  exact ⟨Nat.one_pos, hxs, hxs, s, calls, twice, hrun, htwice, hcalls rfl⟩

/-- The number of calls depends on the policy: a single worker makes the call for the first half once,
but it is made twice if the first quarter is swept while the sum of the half is added up. -/
theorem calls_vary : ∃ report report' : Report (List Nat) (List (Visit (List Nat)) × Store (List Nat)),
    ((Work.steps (Visit.step (Plan.ofLength 1 Nat.one_pos 8)) .depthFirst 200 [.enter 0]).run
        (Store.start (Plan.ofLength 1 Nat.one_pos 8) #[[0], [1], [2], [3], [4], [5], [6], [7]])).run
      (fun a b => (.ok (a ++ b) : Except String (List Nat))) = .ok report ∧
    ((Work.steps (Visit.step (Plan.ofLength 1 Nat.one_pos 8)) (fun k => k / 8) 200 [.enter 0]).run
        (Store.start (Plan.ofLength 1 Nat.one_pos 8) #[[0], [1], [2], [3], [4], [5], [6], [7]])).run
      (fun a b => (.ok (a ++ b) : Except String (List Nat))) = .ok report' ∧
    report.result.1.isEmpty = true ∧ report'.result.1.isEmpty = true ∧
    report.calls.toList.count ([0, 1], [2, 3]) = 1 ∧
    report'.calls.toList.count ([0, 1], [2, 3]) = 2 ∧
    report.calls.size = 15 ∧ report'.calls.size = 16 := by
  have halone : (((Work.steps (Visit.step (Plan.ofLength 1 Nat.one_pos 8)) .depthFirst 200
      [.enter 0]).run (Store.start (Plan.ofLength 1 Nat.one_pos 8)
        #[[0], [1], [2], [3], [4], [5], [6], [7]])).run
      (fun a b => (.ok (a ++ b) : Except String (List Nat)))).toOption.map
    (fun r => (r.result.1.isEmpty, r.calls.toList.count ([0, 1], [2, 3]), r.calls.size)) =
      some (true, 1, 15) := by
    decide +kernel
  have hshared : (((Work.steps (Visit.step (Plan.ofLength 1 Nat.one_pos 8)) (fun k => k / 8) 200
      [.enter 0]).run (Store.start (Plan.ofLength 1 Nat.one_pos 8)
        #[[0], [1], [2], [3], [4], [5], [6], [7]])).run
      (fun a b => (.ok (a ++ b) : Except String (List Nat)))).toOption.map
    (fun r => (r.result.1.isEmpty, r.calls.toList.count ([0, 1], [2, 3]), r.calls.size)) =
      some (true, 2, 16) := by
    decide +kernel
  obtain ⟨report, hrun, hreport⟩ := exists_report halone
  obtain ⟨report', hrun', hreport'⟩ := exists_report hshared
  simp only [Prod.mk.injEq] at hreport hreport'
  exact ⟨report, report', hrun, hrun', hreport.1, hreport'.1, hreport.2.1, hreport'.2.1,
    hreport.2.2, hreport'.2.2⟩

end ForkJoin.Scan

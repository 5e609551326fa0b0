import Mathlib.Algebra.BigOperators.Fin
import ForkJoin.Proofs.Refusals
import ForkJoin.Proofs.Scan.Frontier
import ForkJoin.Proofs.Scan.OneByOne

/-!
# The number of calls of a scan

How many calls are planned for a node depends on its length and on whether it lies at an end of the
window: `Node.calls`. From left to right the leaves tile the window, so only the first one starts it
and only the last one ends it, and their calls add up to about twice its length, one less for each
leaf: `sum_calls_after`. A node that is cut has two calls, less one at either end of the window.
`calls_one_by_one` puts this together for all runs of one worker.
-/
namespace ForkJoin.Scan

open Calling Store

variable {α ε : Type}

/-! ## The calls for one node -/

/-- The number of calls for a node of a window of `len` elements. -/
def Node.calls (len : Nat) (n : Node) : Nat :=
  if n.children.isNone then
    (if n.span.start == 0 || n.span.stop == len then 0 else n.span.len - 1) +
      if n.span.start == 0 then n.span.len - 1 else n.span.len
  else (if n.span.start == 0 then 0 else 1) + if n.span.stop == len then 0 else 1

theorem length_additions {γ : Type} (op : γ → γ → γ) (x : γ) (xs : List γ) :
    (additions op (x :: xs)).length = xs.length := by
  induction xs generalizing x with
  | nil => rw [additions_singleton]; rfl
  | cons y ys ih => rw [additions_cons_cons, List.length_cons, ih, List.length_cons]

namespace Setting

variable {S : Setting α} {t : Nat}

theorem length_foldCalls (ht : t < S.plan.nodes.size) :
    (S.foldCalls t).length = (S.plan.span t).len - 1 := by
  obtain ⟨k, hk⟩ : ∃ k, (S.plan.span t).len = k + 1 :=
    ⟨_, (Nat.sub_add_cancel (S.family.len_pos ht)).symm⟩
  rw [foldCalls, List.length_map, Grouping.elems, hk, List.range'_succ, List.map_cons,
    length_additions, List.length_map, List.length_range', Nat.add_sub_cancel]

theorem length_sweepCalls (ht : t < S.plan.nodes.size) : (S.sweepCalls t).length =
    if S.plan.isFirst t then (S.plan.span t).len - 1 else (S.plan.span t).len := by
  cases hfirst : S.plan.isFirst t with
  | true =>
    have hsame : S.sweepCalls t = S.foldCalls t := by
      rw [sweepCalls, foldCalls, summands, before_of_first hfirst]
      rfl
    rw [hsame, length_foldCalls ht, if_pos rfl]
  | false =>
    obtain ⟨g, hg, _⟩ := before_of_not_first ht hfirst
    rw [sweepCalls, List.length_map, summands, hg, Option.toList_some, List.singleton_append,
      length_additions, Grouping.elems, List.length_map, List.length_range',
      if_neg Bool.false_ne_true]

theorem card_nodeCalls {n : Node} (hn : S.plan.nodes[t]? = some n) :
    (S.nodeCalls t).card = n.calls S.plan.len := by
  have ht := (Array.getElem?_eq_some_iff.1 hn).1
  have hspan := Plan.span_eq hn
  have hleaf : S.plan.IsLeaf t ↔ n.children.isNone := by
    rw [Plan.IsLeaf, hspan, ← Nat.not_lt, ← S.family.children_isSome_iff hn,
      Option.not_isSome_iff_eq_none, Option.isNone_iff_eq_none]
  rw [nodeCalls, Node.calls, ← hspan]
  by_cases h : S.plan.IsLeaf t
  · rw [if_pos h, if_pos (hleaf.1 h), Multiset.card_add, Multiset.coe_card, length_sweepCalls ht]
    congr 1
    rw [apply_ite Multiset.card, Multiset.coe_card, length_foldCalls ht, Multiset.card_zero]
    rfl
  · rw [if_neg h, if_neg (mt hleaf.2 h), Multiset.card_add, apply_ite Multiset.card,
      apply_ite Multiset.card]
    rfl

theorem card_planned (S : Setting α) :
    S.planned.card = (S.plan.nodes.toList.map (Node.calls S.plan.len)).sum := by
  rw [planned, Multiset.card_sum, Finset.sum_range, ← Fin.sum_univ_fun_getElem]
  exact Finset.sum_congr rfl fun t _ => card_nodeCalls (Array.getElem?_eq_getElem t.isLt)

end Setting

/-! ## The calls for all nodes -/

namespace Layout

variable {order ns : List Node} {nodes : Layout} {n last : Node} {i len calls : Nat}

/-- The nodes that are cut. -/
def cuts (nodes : Layout) : List Node := nodes.toList.filter (·.children.isSome)

/-- What comes first in a window that is tiled starts it. -/
theorem tiles_cons {rest : List Nat} (h : n.span.positions ++ rest = List.range' i len)
    (hpos : 0 < n.span.len) :
    n.span.start = i ∧ ∃ k, len = n.span.len + k ∧ rest = List.range' (i + n.span.len) k := by
  have hlen : n.span.len + rest.length = len := by
    have := congrArg List.length h
    rwa [List.length_append, Span.positions, List.length_range', List.length_range'] at this
  rw [← hlen, ← List.range'_append_1] at h
  obtain ⟨hfirst, hrest⟩ := List.append_inj h (by simp [Span.positions])
  refine ⟨?_, rest.length, hlen.symm, hrest⟩
  have hhead := congrArg List.head? hfirst
  rw [Span.positions, List.head?_range', List.head?_range', if_neg (by omega),
    if_neg (by omega)] at hhead
  exact Option.some.inj hhead

/-- The calls for the leaves after the first one. -/
theorem sum_calls_after (htiles : order.flatMap (·.span.positions) = List.range' i len)
    (hi : 0 < i) (hpos : ∀ n ∈ order, 0 < n.span.len) (hleaf : ∀ n ∈ order, n.children = none)
    (hlast : order.getLast? = some last) :
    (order.map (Node.calls (i + len))).sum + order.length + last.span.len = 2 * len + 1 := by
  induction order generalizing i len with
  | nil => cases hlast
  | cons n ns ih =>
    have hn : 0 < n.span.len := hpos n List.mem_cons_self
    have hnone : n.children.isNone = true := by rw [hleaf n List.mem_cons_self]; rfl
    rw [List.flatMap_cons] at htiles
    obtain ⟨hstart, k, rfl, hrest⟩ := tiles_cons htiles hn
    have hfirst : (n.span.start == 0) = false := beq_eq_false_iff_ne.2 (by omega)
    cases ns with
    | nil =>
      obtain rfl : k = 0 := by simpa using hrest.symm
      obtain rfl : n = last := Option.some.inj (List.getLast?_singleton.symm.trans hlast)
      have hstop : (n.span.stop == i + (n.span.len + 0)) = true := by
        rw [Span.stop, hstart, Nat.add_zero, beq_self_eq_true]
      simp only [List.map_cons, List.map_nil, List.sum_cons, List.sum_nil, Node.calls, hnone,
        hfirst, hstop, Bool.or_true, if_true, Bool.false_eq_true, if_false, List.length_singleton]
      omega
    | cons m ms =>
      have hk : 0 < k := by
        have hlen := congrArg List.length hrest
        have hm := hpos m (List.mem_cons_of_mem _ List.mem_cons_self)
        rw [List.flatMap_cons, List.length_append, Span.positions, List.length_range',
          List.length_range'] at hlen
        omega
      have hstop : (n.span.stop == i + (n.span.len + k)) = false := by
        rw [Span.stop, hstart, beq_eq_false_iff_ne]
        omega
      have hafter := ih hrest (by omega) (fun m hm => hpos m (List.mem_cons_of_mem _ hm))
        (fun m hm => hleaf m (List.mem_cons_of_mem _ hm))
        (by rwa [List.getLast?_cons_cons] at hlast)
      rw [Nat.add_assoc i] at hafter
      rw [List.map_cons, List.sum_cons, List.length_cons]
      have hself : n.calls (i + (n.span.len + k)) = n.span.len - 1 + n.span.len := by
        simp only [Node.calls, hnone, hfirst, hstop, Bool.or_false, if_true, Bool.false_eq_true,
          if_false]
      omega

/-- The calls for the nodes that are cut. -/
theorem sum_calls_cut (len : Nat) (hcut : ∀ n ∈ ns, n.children.isSome) :
    (ns.map (Node.calls len)).sum + ns.countP (·.span.start == 0) +
      ns.countP (·.span.stop == len) = 2 * ns.length := by
  induction ns with
  | nil => rfl
  | cons n ns ih =>
    have hrest := ih fun m hm => hcut m (List.mem_cons_of_mem _ hm)
    have hsome : n.children.isNone = false := by
      rw [← Option.not_isSome, hcut n List.mem_cons_self]
      rfl
    have hself : n.calls len + (if n.span.start == 0 then 1 else 0) +
        (if n.span.stop == len then 1 else 0) = 2 := by
      simp only [Node.calls, hsome, Bool.false_eq_true, if_false]
      split <;> split <;> rfl
    rw [List.map_cons, List.sum_cons, List.length_cons, List.countP_cons, List.countP_cons]
    omega

theorem perm_leaves_cuts (nodes : Layout) : (nodes.leaves ++ nodes.cuts).Perm nodes.toList := by
  have hcuts : nodes.cuts = nodes.toList.filter fun n => !n.children.isNone := by
    simp only [cuts, Option.not_isNone]
  rw [hcuts]
  exact List.filter_append_perm _ _

/-- The leaves from left to right. -/
structure LeftToRight (len : Nat) (nodes : Layout) (order : List Node) : Prop where
  perm : order.Perm nodes.leaves
  tiles : order.flatMap (·.span.positions) = List.range len

/-- The number of calls of a scan of `len` elements along this split tree: if there are several
leaves, it depends on the lengths of the first and of the last of them, and on how many nodes that
are cut lie at either end. -/
structure CallCount (len : Nat) (nodes : Layout) (calls : Nat) : Prop where
  order : ∃ order, nodes.LeftToRight len order
  whole : nodes.leaves.length = 1 → calls = len - 1
  cut : ∀ (first last : Node) (between : List Node),
    nodes.LeftToRight len (first :: (between ++ [last])) →
      (calls : Int) = 2 * len - 1 - first.span.len - last.span.len + nodes.leaves.length -
        nodes.cuts.countP (·.span.start == 0) - nodes.cuts.countP (·.span.stop == len)

/-- The first leaf starts the window, and the others tile what comes after it. -/
theorem LeftToRight.first {first : Node} {rest : List Node}
    (h : nodes.LeftToRight len (first :: rest)) (hpos : ∀ n ∈ nodes.leaves, 0 < n.span.len) :
    first.calls len = first.span.len - 1 ∧ ∃ k, len = first.span.len + k ∧
      rest.flatMap (·.span.positions) = List.range' first.span.len k := by
  have hmem := h.perm.mem_iff.1 List.mem_cons_self
  have htiles := h.tiles
  rw [List.flatMap_cons, List.range_eq_range'] at htiles
  obtain ⟨hstart, k, hk, hrest⟩ := tiles_cons htiles (hpos first hmem)
  rw [Nat.zero_add] at hrest
  have hnone : first.children.isNone = true := (List.mem_filter.1 hmem).2
  exact ⟨by simp [Node.calls, hnone, hstart], k, hk, hrest⟩

theorem LeftToRight.sum_calls (h : nodes.LeftToRight len order) :
    (nodes.toList.map (Node.calls len)).sum + nodes.cuts.countP (·.span.start == 0) +
        nodes.cuts.countP (·.span.stop == len) =
      (order.map (Node.calls len)).sum + 2 * nodes.cuts.length := by
  have hcuts := sum_calls_cut len fun n (hn : n ∈ nodes.cuts) => (List.mem_filter.1 hn).2
  have hsum : (nodes.toList.map (Node.calls len)).sum =
      (order.map (Node.calls len)).sum + (nodes.cuts.map (Node.calls len)).sum := by
    rw [← ((perm_leaves_cuts nodes).map _).sum_eq, List.map_append, List.sum_append,
      (h.perm.map _).sum_eq]
  omega

theorem Frontier.callCount (h : Frontier len nodes) (hpos : ∀ n ∈ nodes.leaves, 0 < n.span.len) :
    nodes.CallCount len (nodes.toList.map (Node.calls len)).sum := by
  have hsize : nodes.leaves.length + nodes.cuts.length = nodes.size := by
    rw [← List.length_append, (perm_leaves_cuts nodes).length_eq, Array.length_toList]
  have hfrontier := h.size
  obtain ⟨order, hperm, htiles⟩ := h.tiles
  refine ⟨⟨order, hperm, htiles⟩, fun hwhole => ?_, fun first last between horder => ?_⟩
  · obtain ⟨leaf, rfl⟩ := List.length_eq_one_iff.1 (hperm.length_eq.trans hwhole)
    have horder : nodes.LeftToRight len [leaf] := ⟨hperm, htiles⟩
    obtain ⟨hself, k, hk, hrest⟩ := horder.first hpos
    obtain rfl : k = 0 := by simpa using hrest.symm
    have hcuts : nodes.cuts = [] := List.eq_nil_of_length_eq_zero (by omega)
    have hsum := horder.sum_calls
    rw [List.map_singleton, List.sum_singleton, hself, hcuts] at hsum
    simp only [List.countP_nil, List.length_nil] at hsum
    omega
  · obtain ⟨hself, k, hk, hrest⟩ := horder.first hpos
    have hleaf : ∀ n ∈ first :: (between ++ [last]), 0 < n.span.len ∧ n.children = none :=
      fun n hn =>
        have hmem := horder.perm.mem_iff.1 hn
        ⟨hpos n hmem, Option.isNone_iff_eq_none.1 (List.mem_filter.1 hmem).2⟩
    have hfirst := (hleaf first List.mem_cons_self).1
    have hafter := sum_calls_after hrest hfirst
      (fun n hn => (hleaf n (List.mem_cons_of_mem _ hn)).1)
      (fun n hn => (hleaf n (List.mem_cons_of_mem _ hn)).2) List.getLast?_concat
    have hsum := horder.sum_calls
    have hlength := horder.perm.length_eq
    rw [List.map_cons, List.sum_cons, hself] at hsum
    rw [List.length_cons] at hlength
    rw [← hk] at hafter
    omega

end Layout

theorem Setting.callCount (S : Setting α) (hfrontier : S.plan.nodes.Frontier S.plan.len) :
    S.plan.nodes.CallCount S.plan.len S.planned.card := by
  rw [card_planned]
  refine hfrontier.callCount fun n hn => ?_
  obtain ⟨t, hn⟩ := List.mem_iff_getElem?.1 (List.mem_filter.1 hn).1
  rw [Array.getElem?_toList] at hn
  exact S.family.grown.nonempty t n hn

/-! ## Runs of one worker -/

section

variable {threshold : Nat} {xs : Array α}

theorem callCount_ofArray {op : α → α → α} {ht : 0 < threshold} {hxs : 0 < xs.size}
    {calls : List (α × α)}
    (hcalls : (calls : Multiset (α × α)) = (Setting.ofArray op ht hxs).planned) :
    (Plan.ofLength threshold ht xs.size).nodes.CallCount xs.size calls.length := by
  have hcount := (Setting.ofArray op ht hxs).callCount (Layout.frontier_grow ht xs.size)
  rwa [← hcalls, Multiset.coe_card] at hcount

/-- A run of the visits to the end, depth first, is a scan. -/
theorem returns_scanArray {op : α → α → α} {ht : 0 < threshold} {s : Store α}
    {calls : List (α × α)} (hxs : 0 < xs.size) (h : Returns op
      ((Work.steps (Visit.step (Plan.ofLength threshold ht xs.size)) .depthFirst
        (Plan.ofLength threshold ht xs.size).budget [.enter 0]).run
        (Store.start (Plan.ofLength threshold ht xs.size) xs)) ([], s) calls)
    (hend : s.completed = true) : Returns op (scanArray threshold ht xs) s.cells calls := by
  have hne : xs.isEmpty = false := by
    rw [Array.isEmpty_eq_false_iff]
    rintro rfl
    exact absurd hxs (Nat.lt_irrefl 0)
  have hdrain : Returns op (((Plan.ofLength threshold ht xs.size).run .depthFirst).run
      (Store.start (Plan.ofLength threshold ht xs.size) xs)) ((), s) calls := by
    rw [Plan.run, Work.drain, bind_assoc, StateT.run_bind]
    refine h.bind_done ?_
    simp [hend]
  rw [scanArray, scanArrayUnder, hne, if_neg Bool.false_ne_true]
  exact hdrain.bind_done rfl

/-- A scan is a run of one worker. -/
theorem exists_returns_scanArray (op : α → α → α) (ht : 0 < threshold) (hxs : 0 < xs.size) :
    ∃ ys calls, Returns op (scanArray threshold ht xs) ys calls ∧
      ys.toList = (List.range xs.size).map (Setting.ofArray op ht hxs).result ∧
      (Plan.ofLength threshold ht xs.size).nodes.CallCount xs.size calls.length := by
  have hbudget : 22 * (Plan.ofLength threshold ht xs.size).nodes.size <
      (Plan.ofLength threshold ht xs.size).budget := by
    have hsq := Nat.le_mul_self ((Plan.ofLength threshold ht xs.size).nodes.size + 1)
    rw [Plan.budget]
    omega
  obtain ⟨s, calls, c, hreturns, h, hcalls⟩ := exists_serial op ht hxs .depthFirst hbudget
  rw [Work.serial_depthFirst] at hreturns
  have hend : s.completed = true := by
    rw [((h.node 0 (Setting.ofArray op ht hxs).family.size_pos).root rfl).done, h.end_of_empty]
    rfl
  exact ⟨s.cells, calls, returns_scanArray hxs hreturns hend, h.cells_of_end h.end_of_empty,
    callCount_ofArray hcalls⟩

/-- The scan of a window makes as many calls as the split tree of its length says. -/
theorem exists_returns_ofWindow (op : α → α → α) (tuning : Tuning) {n : Nat} (hn : 0 < n)
    {xs : Array α} (hxs : xs.size = n) : ∃ ys calls, Returns op (Scan.ofWindow tuning xs) ys calls ∧
      (Plan.ofLength (tuning.scanThreshold n) (tuning.scanThreshold_pos n) n).nodes.CallCount n
        calls.length := by
  subst hxs
  obtain ⟨ys, calls, hreturns, _, hcount⟩ :=
    exists_returns_scanArray op (tuning.scanThreshold_pos xs.size) hn
  exact ⟨ys, calls, hreturns, hcount⟩

end

/-- **The number of calls of a scan whose visits are run one at a time**, by any operator, whatever
the window, the threshold and the order of the visits. -/
theorem calls_one_by_one (op : α → α → α) :
    (∀ (threshold : Nat) (ht : 0 < threshold) (xs : Array α), 0 < xs.size → ∃ report,
      (scanArray threshold ht xs).run (fun a b => (.ok (op a b) : Except ε α)) = .ok report ∧
      (Plan.ofLength threshold ht xs.size).nodes.CallCount xs.size report.calls.size ∧
      ∀ (policy : Policy) (k : Nat),
        22 * (Plan.ofLength threshold ht xs.size).nodes.size < k → ∃ s calls,
          ((Work.serial (Visit.step (Plan.ofLength threshold ht xs.size)) policy k [.enter 0]).run
              (Store.start (Plan.ofLength threshold ht xs.size) xs)).run
            (fun a b => (.ok (op a b) : Except ε α)) = .ok ⟨([], s), calls⟩ ∧
          s.cells = report.result ∧
          (Plan.ofLength threshold ht xs.size).nodes.CallCount xs.size calls.size) ∧
    ∀ (tuning : Tuning) (xs : Array α) (w : Window), w.start < w.stop → w.stop ≤ xs.size →
      ∃ report, scanWith tuning (fun a b => (.ok (op a b) : Except ε α)) xs w = .ok report ∧
        (Plan.ofLength (tuning.scanThreshold (w.stop - w.start)) (tuning.scanThreshold_pos _)
          (w.stop - w.start)).nodes.CallCount (w.stop - w.start) report.calls.size := by
  constructor
  · intro threshold ht xs hxs
    obtain ⟨ys, calls, hreturns, hys, hcount⟩ := exists_returns_scanArray op ht hxs
    refine ⟨_, hreturns.run, hcount, fun policy k hk => ?_⟩
    obtain ⟨s, calls, c, hreturns, h, hcalls⟩ := exists_serial op ht hxs policy hk
    refine ⟨s, calls.toArray, hreturns.run, ?_, callCount_ofArray hcalls⟩
    rw [← Array.toList_inj, h.cells_of_end h.end_of_empty, hys]
    rfl
  · intro tuning xs w hstart hstop
    have hw := Window.check_eq_ok_iff.2 ⟨Nat.le_of_lt hstart, hstop⟩
    have hsize : (xs.extract w.start w.stop).size = w.stop - w.start := by
      rw [Array.size_extract]
      omega
    obtain ⟨ys, calls, hreturns, hcount⟩ :=
      exists_returns_ofWindow op tuning (Nat.sub_pos_of_lt hstart) hsize
    exact ⟨_, by rw [scanWith_eq tuning _ hw, hreturns.run]; rfl, hcount⟩

/-- Seven numbers in four leaves, the first of one element and the last of two, below three nodes
that are cut, two of them at either end: ten calls, for an array and for a window. -/
theorem calls_one_by_one_seven : 0 < 2 ∧ 0 < #[1, 2, 3, 4, 5, 6, 7].size ∧
    22 * (Plan.ofLength 2 Nat.two_pos 7).nodes.size < 200 ∧ 1 < 8 ∧
    8 ≤ #[0, 1, 2, 3, 4, 5, 6, 7, 8].size ∧
    (∃ s calls,
      ((Work.serial (Visit.step (Plan.ofLength 2 Nat.two_pos 7)) (fun k => k / 3) 200
          [.enter 0]).run (Store.start (Plan.ofLength 2 Nat.two_pos 7) #[1, 2, 3, 4, 5, 6, 7])).run
        (fun a b : Nat => (.ok (a + b) : Except String Nat)) = .ok ⟨([], s), calls⟩ ∧
      calls.size = 10) ∧
    ∃ report, scanWith ⟨{ val := 2 }, { val := 2 }, { val := 1 }⟩
        (fun a b : Nat => (.ok (a + b) : Except String Nat)) #[0, 1, 2, 3, 4, 5, 6, 7, 8] ⟨1, 8⟩ =
      .ok report ∧ report.calls.size = 10 := by
  obtain ⟨harray, hwindow⟩ := calls_one_by_one (ε := String) (fun a b : Nat => a + b)
  have hsteps : 22 * (Plan.ofLength 2 Nat.two_pos 7).nodes.size < 200 := by decide +kernel
  obtain ⟨_, _, _, hpolicy⟩ := harray 2 Nat.two_pos #[1, 2, 3, 4, 5, 6, 7] (by decide)
  obtain ⟨s, calls, hrun, _, hcount⟩ := hpolicy (fun k => k / 3) 200 hsteps
  obtain ⟨report, hreport, hcount'⟩ := hwindow ⟨{ val := 2 }, { val := 2 }, { val := 1 }⟩
    #[0, 1, 2, 3, 4, 5, 6, 7, 8] ⟨1, 8⟩ (by decide) (by decide)
  have hten : ∀ {calls : Nat}, (Plan.ofLength 2 Nat.two_pos 7).nodes.CallCount 7 calls →
      calls = 10 := by
    intro calls h
    have horder : (Plan.ofLength 2 Nat.two_pos 7).nodes.LeftToRight 7
        [⟨⟨0, 1⟩, some 1, none⟩, ⟨⟨1, 2⟩, some 1, none⟩, ⟨⟨3, 2⟩, some 2, none⟩,
          ⟨⟨5, 2⟩, some 2, none⟩] :=
      ⟨by decide +kernel, by decide +kernel⟩
    have hcut := h.cut _ _ [_, _] horder
    have hleaves : (Plan.ofLength 2 Nat.two_pos 7).nodes.leaves.length = 4 :=
      horder.perm.length_eq.symm
    have hleft : (Plan.ofLength 2 Nat.two_pos 7).nodes.cuts.countP (·.span.start == 0) = 2 := by
      decide +kernel
    have hright : (Plan.ofLength 2 Nat.two_pos 7).nodes.cuts.countP (·.span.stop == 7) = 2 := by
      decide +kernel
    rw [hleaves, hleft, hright] at hcut
    dsimp only at hcut
    omega
  exact ⟨Nat.two_pos, by decide, hsteps, by decide, by decide, ⟨s, calls, hrun, hten hcount⟩,
    report, hreport, hten hcount'⟩

end ForkJoin.Scan

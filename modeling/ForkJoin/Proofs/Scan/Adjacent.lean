import ForkJoin.Proofs.Scan.CallsMade
import ForkJoin.Proofs.Windows

/-!
# What a scan adds up

Let the elements be their own positions, and let an addition only put two groupings together. Then a
call shows what its operands are sums of. Every call of a scan, in either pass and under every policy,
adds up two pieces of the window that lie side by side, the left one first; no value is a sum in any
other order. The end of the window is reached by one call only, the one that gives the last value, and
what it adds is the last element itself: `scan_in_order`.
-/
namespace ForkJoin.Scan

open Calling Store

variable {α ε : Type}

namespace Grouping

/-- The elements from `i` up to `j`, each once and in their order; there is at least one. -/
def Covers (g : Grouping) (i j : Nat) : Prop := i < j ∧ g.indices = List.range' i (j - i)

/-- Two pieces side by side, of the first `n` elements. -/
def Adjacent (n : Nat) (call : Grouping × Grouping) : Prop :=
  ∃ i j k, call.1.Covers i j ∧ call.2.Covers j k ∧ k ≤ n

/-- The last of `n` elements is one of those that are added. -/
def Reaches (n : Nat) (call : Grouping × Grouping) : Prop := n - 1 ∈ call.2.indices

instance (n : Nat) : DecidablePred (Reaches n) :=
  fun _ => inferInstanceAs (Decidable (_ ∈ _))

section

variable {g g' : Grouping} {i j k m n threshold : Nat} {ht : 0 < threshold} {root s : Span}
  {call : Grouping × Grouping}

theorem covers_elem (i : Nat) : (elem i).Covers i (i + 1) := by
  refine ⟨Nat.lt_succ_self i, ?_⟩
  rw [Nat.add_sub_cancel_left]
  rfl

theorem Covers.join (h : g.Covers i j) (h' : g'.Covers j k) : (join g g').Covers i k := by
  obtain ⟨hij, hg⟩ := h
  obtain ⟨hjk, hg'⟩ := h'
  have hmeet : i + (j - i) = j := by omega
  have hlen : j - i + (k - j) = k - i := by omega
  refine ⟨Nat.lt_trans hij hjk, ?_⟩
  rw [indices, hg, hg', ← hlen, ← List.range'_append_1, hmeet]

theorem Covers.lt_of_mem (h : g.Covers i j) (hm : m ∈ g.indices) : m < j := by
  obtain ⟨hij, hg⟩ := h
  rw [hg, List.mem_range'_1] at hm
  omega

theorem Adjacent.mono (h : Adjacent n call) (hnm : n ≤ m) : Adjacent m call := by
  obtain ⟨i, j, k, hleft, hright, hk⟩ := h
  exact ⟨i, j, k, hleft, hright, Nat.le_trans hk hnm⟩

theorem Adjacent.not_reaches (h : Adjacent k call) (hk : k < n) : ¬ Reaches n call := by
  obtain ⟨i, j, l, _, hright, hl⟩ := h
  intro hmem
  have := hright.lt_of_mem hmem
  omega

theorem covers_sumOf (ht : 0 < threshold) (hs : 0 < s.len) :
    (sumOf threshold ht s).Covers s.start s.stop := by
  refine ⟨by rw [Span.stop]; omega, ?_⟩
  rw [indices_sumOf threshold ht hs, Span.stop, Nat.add_sub_cancel_left]

/-- What precedes a node is the elements before it. -/
theorem Descends.covers_before (hd : Descends threshold root s) (hs : 0 < s.len)
    (h : before threshold ht root s.start = some g) : g.Covers root.start s.start := by
  induction hd generalizing g with
  | refl =>
    rw [before, turns_start] at h
    cases h
  | @lower s hd hlt ih => exact ih (by omega) h
  | @upper s hd hlt ih =>
    have hlower : (sumOf threshold ht s.lower).Covers s.start s.upper.start :=
      covers_sumOf ht (s := s.lower) (by simp only [Span.lower]; omega)
    rw [hd.before_upper hlt] at h
    obtain rfl := Option.some.inj h
    cases hbefore : before threshold ht root s.start with
    | some g => exact (ih (by omega) hbefore).join hlower
    | none =>
      -- nothing precedes a node only where the window starts
      have hstart : s.start = root.start := by
        refine Decidable.byContradiction fun hne => ?_
        rw [before, leftFold_eq_none_iff, List.map_eq_nil_iff] at hbefore
        exact hd.turns_ne_nil hne (by omega) hbefore
      exact hstart ▸ hlower

/-! ## The additions of a segment -/

theorem elems_concat (j k : Nat) : elems ⟨j, k + 1⟩ = elems ⟨j, k⟩ ++ [elem (j + k)] := by
  rw [elems, elems, List.range'_1_concat, List.map_append]
  rfl

theorem covers_foldl_elems (h : g.Covers i j) (k : Nat) :
    ((elems ⟨j, k⟩).foldl join g).Covers i (j + k) := by
  induction k with
  | zero => exact h
  | succ k ih =>
    rw [elems_concat, List.foldl_append]
    exact ih.join (covers_elem (j + k))

end

theorem additions_concat (op : α → α → α) (x : α) (xs : List α) (y : α) :
    additions op (x :: (xs ++ [y])) = additions op (x :: xs) ++ [(xs.foldl op x, y)] := by
  induction xs generalizing x with
  | nil => simp [additions_cons_cons]
  | cons z zs ih =>
    rw [List.cons_append, additions_cons_cons, additions_cons_cons, ih, List.cons_append]
    rfl

/-- The elements of a segment are added one by one. -/
theorem additions_elems (g : Grouping) (j k : Nat) : additions .join (g :: elems ⟨j, k⟩) =
    (List.range k).map fun m => ((elems ⟨j, m⟩).foldl join g, elem (j + m)) := by
  induction k with
  | zero => simp [elems]
  | succ k ih => rw [elems_concat, additions_concat, ih, List.range_succ, List.map_append]; rfl

section

variable {g : Grouping} {i j k n : Nat} {call : Grouping × Grouping}

theorem adjacent_of_mem_additions (h : g.Covers i j)
    (hcall : call ∈ additions .join (g :: elems ⟨j, k⟩)) : Adjacent (j + k) call := by
  rw [additions_elems] at hcall
  obtain ⟨m, hm, rfl⟩ := List.mem_map.1 hcall
  have hmk := List.mem_range.1 hm
  exact ⟨i, j + m, j + m + 1, covers_foldl_elems h m, covers_elem _, by omega⟩

/-- The last element is added once. -/
theorem filter_additions (h : g.Covers i j) (hn : j + (k + 1) = n) :
    (additions .join (g :: elems ⟨j, k + 1⟩)).filter (Reaches n) =
      [((elems ⟨j, k⟩).foldl join g, elem (n - 1))] := by
  have hlast : n - 1 = j + k := by omega
  rw [elems_concat, additions_concat, List.filter_append, List.filter_eq_nil_iff.2, hlast]
  · simp [Reaches, indices, hlast]
  · intro call hcall
    rw [decide_eq_true_eq]
    exact (adjacent_of_mem_additions h hcall).not_reaches (by omega)

end

end Grouping

open Grouping

/-! ## The last leaf -/

/-- One leaf ends with the window. -/
theorem Plan.IsFamily.exists_last_leaf {plan : Plan} (hF : plan.IsFamily) :
    ∃ t < plan.nodes.size, plan.IsLeaf t ∧ plan.isLast (plan.span t) = true := by
  have hroot : plan.isLast (plan.span 0) = true := by
    rw [hF.span_root, Plan.isLast, Span.stop, Nat.zero_add, beq_self_eq_true]
  have hdown : ∀ t < plan.nodes.size, plan.isLast (plan.span t) = true →
      ∃ t < plan.nodes.size, plan.IsLeaf t ∧ plan.isLast (plan.span t) = true := by
    intro t ht hlast
    induction hn : plan.nodes.size - t using Nat.strong_induction_on generalizing t with
    | _ n ih =>
      by_cases hleaf : plan.IsLeaf t
      · exact ⟨t, ht, hleaf, hlast⟩
      · obtain ⟨l, r, hcut⟩ := hF.exists_cut ht hleaf
        have hlt := hcut.lt_child hF (.inr rfl)
        exact ih _ (by omega) r hcut.right_lt_size (hcut.isLast_right.trans hlast) rfl
  exact hdown 0 hF.size_pos hroot

theorem Plan.IsFamily.last_leaf_unique {plan : Plan} (hF : plan.IsFamily) {t u : Nat}
    (ht : t < plan.nodes.size) (hu : u < plan.nodes.size) (htleaf : plan.IsLeaf t)
    (huleaf : plan.IsLeaf u) (htlast : plan.isLast (plan.span t) = true)
    (hulast : plan.isLast (plan.span u) = true) : t = u := by
  refine Decidable.byContradiction fun hne => ?_
  have hdisjoint := hF.leaf_disjoint ht hu htleaf huleaf hne
  have htpos := hF.len_pos ht
  have hupos := hF.len_pos hu
  rw [Plan.isLast, beq_iff_eq] at htlast hulast
  simp only [Span.stop] at hdisjoint htlast hulast
  omega

/-! ## Free additions -/

/-- The elements are their positions, and an addition puts two groupings together. -/
structure Setting.Free (S : Setting Grouping) : Prop where
  op : S.op = .join
  elem : ∀ i < S.plan.len, S.elem i = .elem i

namespace Setting

variable {S : Setting Grouping} {t : Nat} {call : Grouping × Grouping}

theorem Free.worth_eq (hS : S.Free) {g : Grouping} (hg : ∀ i ∈ g.indices, i < S.plan.len) :
    S.worth g = g := by
  induction g with
  | elem i => exact hS.elem i (hg i List.mem_cons_self)
  | join left right ihl ihr =>
    have hl := ihl fun i hi => hg i (List.mem_append_left _ hi)
    have hr := ihr fun i hi => hg i (List.mem_append_right _ hi)
    rw [worth, hS.op] at hl hr ⊢
    rw [eval, hl, hr]

theorem Free.worth_covers (hS : S.Free) {g : Grouping} {i j : Nat} (h : g.Covers i j)
    (hj : j ≤ S.plan.len) : S.worth g = g :=
  hS.worth_eq fun _ hm => Nat.lt_of_lt_of_le (h.lt_of_mem hm) hj

/-- Calls on pieces of the window are what they are. -/
theorem Free.map_worth (hS : S.Free) {calls : List (Grouping × Grouping)}
    (h : ∀ call ∈ calls, Adjacent S.plan.len call) :
    calls.map (Prod.map S.worth S.worth) = calls := by
  refine (List.map_congr_left fun call hcall => ?_).trans (List.map_id calls)
  obtain ⟨i, j, k, hleft, hright, hk⟩ := h call hcall
  have hjk := hright.1
  exact Prod.ext (hS.worth_covers hleft (by omega)) (hS.worth_covers hright hk)

theorem covers_sum (ht : t < S.plan.nodes.size) :
    (S.sumOf t).Covers (S.plan.span t).start (S.plan.span t).stop :=
  covers_sumOf S.family.pos (S.family.len_pos ht)

theorem covers_before (ht : t < S.plan.nodes.size) {g : Grouping} (hg : S.before t = some g) :
    g.Covers 0 (S.plan.span t).start :=
  (descends ht).covers_before (S.family.len_pos ht) hg

theorem Free.sum_eq (hS : S.Free) (ht : t < S.plan.nodes.size) : S.sum t = S.sumOf t :=
  hS.worth_covers (covers_sum ht) (S.family.stop_le ht)

theorem Free.covers_carry (hS : S.Free) (ht : t < S.plan.nodes.size)
    (hfirst : S.plan.isFirst t = false) : (S.carry t).Covers 0 (S.plan.span t).start := by
  obtain ⟨g, hg, hcarry⟩ := before_of_not_first ht hfirst
  have hcovers := covers_before ht hg
  have hstop := S.family.stop_le ht
  rw [hcarry, hS.worth_covers hcovers (by rw [Span.stop] at hstop; omega)]
  exact hcovers

/-- What a sweep adds up: something up to `j`, then the elements from `j` on. -/
theorem summands_eq (ht : t < S.plan.nodes.size) : ∃ g j k, S.summands t = g :: elems ⟨j, k⟩ ∧
    g.Covers 0 j ∧ j + k = (S.plan.span t).stop ∧ (1 < (S.plan.span t).stop → 0 < k) := by
  have hpos := S.family.len_pos ht
  cases hfirst : S.plan.isFirst t with
  | true =>
    have hstart : (S.plan.span t).start = 0 := by simpa [Plan.isFirst] using hfirst
    obtain ⟨k, hk⟩ : ∃ k, (S.plan.span t).len = k + 1 := ⟨_, (Nat.sub_add_cancel hpos).symm⟩
    refine ⟨.elem 0, 1, k, ?_, covers_elem 0, ?_, ?_⟩
    · rw [summands, before_of_first hfirst, elems, elems, hstart, hk, List.range'_succ]
      rfl
    · rw [Span.stop, hstart, hk]
      omega
    · rw [Span.stop, hstart, hk]
      omega
  | false =>
    obtain ⟨g, hg, _⟩ := before_of_not_first ht hfirst
    refine ⟨g, (S.plan.span t).start, (S.plan.span t).len, ?_, covers_before ht hg, rfl,
      fun _ => hpos⟩
    rw [summands, hg]
    rfl

/-! ### The calls for a node -/

theorem Free.foldCalls_eq (hS : S.Free) (ht : t < S.plan.nodes.size) :
    S.foldCalls t = additions .join (elems (S.plan.span t)) ∧
      ∀ call ∈ S.foldCalls t, Adjacent (S.plan.span t).stop call := by
  have hpos := S.family.len_pos ht
  obtain ⟨k, hk⟩ : ∃ k, (S.plan.span t).len = k + 1 := ⟨_, (Nat.sub_add_cancel hpos).symm⟩
  have hsplit : elems (S.plan.span t) =
      .elem (S.plan.span t).start :: elems ⟨(S.plan.span t).start + 1, k⟩ := by
    rw [elems, elems, hk, List.range'_succ]
    rfl
  have hadjacent : ∀ call ∈ additions .join (elems (S.plan.span t)),
      Adjacent (S.plan.span t).stop call := by
    intro call hcall
    rw [hsplit] at hcall
    refine (adjacent_of_mem_additions (covers_elem _) hcall).mono ?_
    rw [Span.stop, hk]
    omega
  have heq : S.foldCalls t = additions .join (elems (S.plan.span t)) :=
    hS.map_worth fun call hcall => (hadjacent call hcall).mono (S.family.stop_le ht)
  exact ⟨heq, by rwa [heq]⟩

theorem Free.sweepCalls_eq (hS : S.Free) (ht : t < S.plan.nodes.size) :
    S.sweepCalls t = additions .join (S.summands t) ∧
      ∀ call ∈ S.sweepCalls t, Adjacent (S.plan.span t).stop call := by
  have hadjacent : ∀ call ∈ additions .join (S.summands t), Adjacent (S.plan.span t).stop call := by
    obtain ⟨g, j, k, hsummands, hg, hstop, _⟩ := S.summands_eq ht
    intro call hcall
    rw [hsummands] at hcall
    exact hstop ▸ adjacent_of_mem_additions hg hcall
  have heq : S.sweepCalls t = additions .join (S.summands t) :=
    hS.map_worth fun call hcall => (hadjacent call hcall).mono (S.family.stop_le ht)
  exact ⟨heq, by rwa [heq]⟩

/-- The sums of two halves lie side by side. -/
theorem Free.adjacent_joinCall (hS : S.Free) {l r : Nat} (hcut : S.plan.Cut t l r) :
    Adjacent (S.plan.span t).stop (S.joinCall t) := by
  have hl := covers_sum hcut.left_lt_size
  have hr := covers_sum hcut.right_lt_size
  rw [hcut.span_left, Span.stop_lower, Span.start_lower] at hl
  rw [hcut.span_right, Span.stop_upper] at hr
  rw [joinCall, hcut.kids_eq, hS.sum_eq hcut.left_lt_size, hS.sum_eq hcut.right_lt_size]
  exact ⟨_, _, _, hl, hr, Nat.le_refl _⟩

/-- What precedes a node lies beside its left half, which does not end where the window does. -/
theorem Free.adjacent_carryCall (hS : S.Free) {l r : Nat} (hcut : S.plan.Cut t l r)
    (hfirst : S.plan.isFirst t = false) : Adjacent (S.plan.span l).stop (S.carryCall t) := by
  have hl := covers_sum hcut.left_lt_size
  have hstart : (S.plan.span l).start = (S.plan.span t).start := by
    rw [hcut.span_left, Span.start_lower]
  rw [hstart] at hl
  rw [carryCall, hcut.kids_eq, hS.sum_eq hcut.left_lt_size]
  exact ⟨_, _, _, hS.covers_carry hcut.lt_size hfirst, hl, Nat.le_refl _⟩

theorem stop_lt_of_not_last (ht : t < S.plan.nodes.size)
    (hlast : S.plan.isLast (S.plan.span t) = false) : (S.plan.span t).stop < S.plan.len := by
  have hstop := S.family.stop_le ht
  rw [Plan.isLast, beq_eq_false_iff_ne] at hlast
  omega

/-- Every call for a node adds up two pieces side by side, and it reaches the end of the window only
in the sweep of the last leaf. -/
theorem Free.adjacent_of_mem (hS : S.Free) (ht : t < S.plan.nodes.size)
    (hcall : call ∈ S.nodeCalls t) : Adjacent S.plan.len call ∧
      (¬ (S.plan.IsLeaf t ∧ S.plan.isLast (S.plan.span t) = true) →
        ¬ Reaches S.plan.len call) := by
  have hstop := S.family.stop_le ht
  by_cases hleaf : S.plan.IsLeaf t
  · have hcall : Adjacent (S.plan.span t).stop call := by
      rw [nodeCalls, if_pos hleaf, Multiset.mem_add] at hcall
      rcases hcall with hcall | hcall
      · split at hcall
        · exact absurd hcall (Multiset.notMem_zero _)
        · exact (hS.foldCalls_eq ht).2 call (Multiset.mem_coe.1 hcall)
      · exact (hS.sweepCalls_eq ht).2 call (Multiset.mem_coe.1 hcall)
    refine ⟨hcall.mono hstop, fun hnot => hcall.not_reaches ?_⟩
    exact stop_lt_of_not_last ht (Bool.eq_false_iff.2 fun hlast => hnot ⟨hleaf, hlast⟩)
  · obtain ⟨l, r, hcut⟩ := S.family.exists_cut ht hleaf
    have hl := stop_lt_of_not_last hcut.left_lt_size (hcut.isLast_left S.family)
    rw [nodeCalls, if_neg hleaf, Multiset.mem_add] at hcall
    rcases hcall with hcall | hcall
    · split at hcall
      · exact absurd hcall (Multiset.notMem_zero _)
      · rename_i hfirst
        obtain rfl := Multiset.mem_singleton.1 hcall
        have hadjacent := hS.adjacent_carryCall hcut (Bool.eq_false_iff.2 hfirst)
        exact ⟨hadjacent.mono (Nat.le_of_lt hl), fun _ => hadjacent.not_reaches hl⟩
    · split at hcall
      · exact absurd hcall (Multiset.notMem_zero _)
      · rename_i hlast
        obtain rfl := Multiset.mem_singleton.1 hcall
        have hadjacent := hS.adjacent_joinCall hcut
        exact ⟨hadjacent.mono hstop, fun _ =>
          hadjacent.not_reaches (stop_lt_of_not_last ht (Bool.eq_false_iff.2 hlast))⟩

/-- No call is made for a node but the planned ones. -/
theorem mem_nodeCalls_of_mem {a : Stage} (hcall : call ∈ S.calls t a) : call ∈ S.nodeCalls t := by
  have hmem := Multiset.mem_of_le S.calls_le hcall
  rw [Multiset.mem_add] at hmem
  rcases hmem with hmem | hmem
  · exact hmem
  · split at hmem
    · rename_i hretried
      simp only [retried, Bool.and_eq_true, Bool.not_eq_true', decide_eq_false_iff_not] at hretried
      rw [nodeCalls, if_neg hretried.1, hretried.2.2, if_neg Bool.false_ne_true]
      exact Multiset.mem_add.2 (.inr hmem)
    · exact absurd hmem (Multiset.notMem_zero _)

/-! ### The end of the window -/

/-- At the last leaf one call reaches the end of the window, and gives the last value. -/
theorem Free.filter_last (hS : S.Free) (hlen : 2 ≤ S.plan.len) (ht : t < S.plan.nodes.size)
    (hleaf : S.plan.IsLeaf t) (hlast : S.plan.isLast (S.plan.span t) = true) :
    ∃ a, (S.nodeCalls t).filter (Reaches S.plan.len) = {(a, .elem (S.plan.len - 1))} ∧
      S.result (S.plan.len - 1) = .join a (.elem (S.plan.len - 1)) := by
  have hstop : (S.plan.span t).stop = S.plan.len := beq_iff_eq.1 hlast
  have hpos := S.family.len_pos ht
  obtain ⟨g, j, k, hsummands, hg, hjk, hk⟩ := S.summands_eq ht
  obtain ⟨k, rfl⟩ : ∃ m, k = m + 1 := ⟨k - 1, by omega⟩
  rw [hstop] at hjk
  refine ⟨(elems ⟨j, k⟩).foldl .join g, ?_, ?_⟩
  · rw [nodeCalls, if_pos hleaf, hlast, Bool.or_true, if_pos rfl, zero_add,
      (hS.sweepCalls_eq ht).1, hsummands, Multiset.filter_coe, filter_additions hg hjk,
      Multiset.coe_singleton]
  · have hindex : j + k = S.plan.len - 1 := by omega
    have hlength : S.plan.len - 1 + 1 - (S.plan.span t).start = (S.plan.span t).len := by
      rw [← hstop, Span.stop]
      omega
    have hvalue : upTo S.plan.threshold S.family.pos S.plan.len (S.plan.len - 1) = _ :=
      (descends ht).upTo_leaf (Nat.not_lt.2 hleaf) (by rw [← hstop, Span.stop]; omega) (by omega)
    have hcovers := (covers_foldl_elems hg k).join (covers_elem (j + k))
    rw [hlength, show Grouping.before _ _ _ _ = S.before t from rfl,
      show (S.before t).toList ++ elems _ = S.summands t from rfl, hsummands, leftFold,
      elems_concat, List.foldl_append] at hvalue
    rw [result, hvalue, Option.map_some, Option.getD_some, ← hindex]
    exact hS.worth_covers hcovers (by omega)

end Setting

/-! ## Runs -/

/-- A scan of `n` elements by their positions: the calls, and the values that are left. -/
structure InOrder (n : Nat) (calls : List (Grouping × Grouping)) (values : List Grouping) :
    Prop where
  adjacent : ∀ call ∈ calls, Adjacent n call
  value : ∀ m < n, ∃ g, values[m]? = some g ∧ g.indices = List.range (m + 1)
  last : 2 ≤ n → ∃ a, calls.filter (Reaches n) = [(a, .elem (n - 1))] ∧
    values[n - 1]? = some (.join a (.elem (n - 1)))

theorem filter_sum {ι : Type} (p : α → Prop) [DecidablePred p] (f : ι → Multiset α)
    (s : Finset ι) : (∑ i ∈ s, f i).filter p = ∑ i ∈ s, (f i).filter p := by
  classical
  induction s using Finset.induction_on with
  | empty => rfl
  | insert i s hi ih => rw [Finset.sum_insert hi, Finset.sum_insert hi, Multiset.filter_add, ih]

namespace Inv

variable {S : Setting Grouping} {c : Nat → Stage} {s : Store Grouping}
  {pool : Multiset (Visit Grouping)} {calls : List (Grouping × Grouping)}

/-- At any time of a run, all calls so far were made on pieces side by side. -/
theorem adjacent (h : Inv S c pool s calls) (hS : S.Free) :
    ∀ call ∈ calls, Adjacent S.plan.len call := by
  intro call hcall
  have hmem : call ∈ ∑ t ∈ Finset.range S.plan.nodes.size, S.calls t (c t) := by
    rw [← h.calls]
    exact Multiset.mem_coe.2 hcall
  obtain ⟨t, ht, hmem⟩ := Multiset.mem_sum.1 hmem
  exact (hS.adjacent_of_mem (Finset.mem_range.1 ht) (Setting.mem_nodeCalls_of_mem hmem)).1

/-- At its end, one call has reached the end of the window. -/
theorem filter_end (h : Inv S c 0 s calls) (hS : S.Free) (hlen : 2 ≤ S.plan.len) :
    ∃ a, calls.filter (Reaches S.plan.len) = [(a, .elem (S.plan.len - 1))] ∧
      S.result (S.plan.len - 1) = .join a (.elem (S.plan.len - 1)) := by
  obtain ⟨t, ht, hleaf, hlast⟩ := S.family.exists_last_leaf
  obtain ⟨a, hfilter, hresult⟩ := hS.filter_last hlen ht hleaf hlast
  refine ⟨a, ?_, hresult⟩
  rw [← Multiset.coe_eq_singleton, ← Multiset.filter_coe, h.calls, filter_sum,
    Finset.sum_eq_single t]
  · rw [h.calls_end ht, if_neg, add_zero, hfilter]
    rw [Setting.retried, decide_eq_true hleaf]
    exact Bool.false_ne_true
  · intro u hu hne
    rw [Multiset.filter_eq_nil]
    intro call hcall
    have hu := Finset.mem_range.1 hu
    refine (hS.adjacent_of_mem hu (Setting.mem_nodeCalls_of_mem hcall)).2 ?_
    rintro ⟨huleaf, hulast⟩
    exact hne (S.family.last_leaf_unique hu ht huleaf hleaf hulast hlast)
  · exact fun hnot => absurd (Finset.mem_range.2 ht) hnot

theorem in_order (h : Inv S c 0 s calls) (hS : S.Free) :
    InOrder S.plan.len calls s.cells.toList := by
  have hresult : ∀ m < S.plan.len, s.cells.toList[m]? = some (S.result m) := by
    intro m hm
    rw [h.cells_of_end h.end_of_empty, List.getElem?_map, List.getElem?_range hm, Option.map_some]
  refine ⟨h.adjacent hS, fun m hm => ?_, fun hlen => ?_⟩
  · obtain ⟨g, hg, hindices⟩ := indices_upTo S.plan.threshold S.family.pos S.plan.len m
    refine ⟨g, ?_, hindices⟩
    rw [hresult m hm, Setting.result, hg, Option.map_some, Option.getD_some, hS.worth_eq]
    intro i hi
    rw [hindices, List.mem_range] at hi
    omega
  · obtain ⟨a, hfilter, hlast⟩ := h.filter_end hS hlen
    exact ⟨a, hfilter, by rw [hresult _ (by omega), hlast]⟩

end Inv

section

variable {n threshold : Nat} {ht : 0 < threshold} {xs : Array Grouping}

theorem size_of_elems (hxs : xs.toList = (List.range n).map .elem) : xs.size = n := by
  rw [← Array.length_toList, hxs, List.length_map, List.length_range]

theorem Setting.free_ofArray (hxs : xs.toList = (List.range n).map .elem) (hpos : 0 < xs.size) :
    (Setting.ofArray .join ht hpos).Free := by
  refine ⟨rfl, fun i (hi : i < xs.size) => ?_⟩
  have helem : xs[i]? = some ((Setting.ofArray .join ht hpos).elem i) := Setting.elem_ofArray hi
  rw [← Array.getElem?_toList, hxs, List.getElem?_map,
    List.getElem?_range (size_of_elems hxs ▸ hi), Option.map_some] at helem
  exact (Option.some.inj helem).symm

/-- A scan by a single worker is a run of the visits to the end. -/
theorem exists_steps_of_scanArray {op : α → α → α} {xs ys : Array α} {calls : List (α × α)}
    (hpos : 0 < xs.size) (h : Returns op (scanArray threshold ht xs) ys calls) :
    ∃ k s, Returns op
      ((Work.steps (Visit.step (Plan.ofLength threshold ht xs.size)) .depthFirst k [.enter 0]).run
        (Store.start (Plan.ofLength threshold ht xs.size) xs)) ([], s) calls ∧ s.cells = ys := by
  have hne : xs.isEmpty = false := by
    rw [Array.isEmpty_eq_false_iff]
    rintro rfl
    exact absurd hpos (Nat.lt_irrefl 0)
  rw [scanArray, scanArrayUnder, hne, if_neg Bool.false_ne_true] at h
  obtain ⟨⟨_, s⟩, made, more, hrun, hcells, rfl⟩ := h.of_bind
  cases hcells
  rw [Plan.run, StateT.run_bind, Work.drain, StateT.run_bind] at hrun
  obtain ⟨⟨_, s₁⟩, made, more, hdrain, hend, rfl⟩ := hrun.of_bind
  obtain ⟨⟨pool, s₂⟩, made, rest, hsteps, hempty, rfl⟩ := hdrain.of_bind
  -- what is left after the steps makes no call and changes nothing, if it does not fail
  dsimp only at hempty hend
  split at hempty
  · rename_i hpool
    obtain rfl := List.isEmpty_iff.1 hpool
    cases hempty
    simp only [StateT.run_bind, StateT.run_get, Calling.pure_eq, Calling.done_bind] at hend
    split at hend
    · cases hend
      exact ⟨_, _, by simpa only [List.append_nil] using hsteps, rfl⟩
    · cases hend
  · cases hempty

/-- A scan by one worker adds up in order, as a run of its visits does. -/
theorem in_order_of_returns {ys : Array Grouping} {calls : List (Grouping × Grouping)}
    (hxs : xs.toList = (List.range n).map .elem)
    (h : Returns .join (scanArray threshold ht xs) ys calls) : InOrder n calls ys.toList := by
  obtain rfl := size_of_elems hxs
  rcases Nat.eq_zero_or_pos xs.size with hzero | hpos
  · obtain rfl := Array.eq_empty_of_size_eq_zero hzero
    cases h
    exact ⟨by simp, by simp, by simp⟩
  · obtain ⟨k, s, hsteps, rfl⟩ := exists_steps_of_scanArray hpos h
    obtain ⟨pool, s', made, c, hrun, hinv⟩ := exists_inv (ε := Empty) .join ht hpos .depthFirst k
    have hsame := Except.ok.inj (hrun.symm.trans hsteps.run)
    obtain ⟨⟨rfl, rfl⟩, rfl⟩ : (pool = [] ∧ s' = s) ∧ made = calls := by simpa using hsame
    exact hinv.in_order (Setting.free_ofArray hxs hpos)

end

/-- **A scan adds up pieces that lie side by side, in their order**, whatever the window and the tuning,
and under every policy of its visits. -/
theorem scan_in_order :
    (∀ (tuning : Tuning) (xs : Array Grouping) (w : Window), w.start ≤ w.stop → w.stop ≤ xs.size →
      (xs.extract w.start w.stop).toList = (List.range (w.stop - w.start)).map .elem → ∃ report,
        scanWith tuning (fun a b => (.ok (.join a b) : Except ε Grouping)) xs w = .ok report ∧
          InOrder (w.stop - w.start) report.calls.toList
            (report.result.values.extract w.start w.stop).toList) ∧
    ∀ (threshold : Nat) (ht : 0 < threshold) (xs : Array Grouping) (n : Nat), 0 < n →
      xs.toList = (List.range n).map .elem → ∀ (policy : Policy) (k : Nat), ∃ pool s calls,
        ((Work.steps (Visit.step (Plan.ofLength threshold ht xs.size)) policy k [.enter 0]).run
            (Store.start (Plan.ofLength threshold ht xs.size) xs)).run
          (fun a b => (.ok (.join a b) : Except ε Grouping)) = .ok ⟨(pool, s), calls⟩ ∧
        (∀ call ∈ calls.toList, Adjacent n call) ∧
        (pool = [] → InOrder n calls.toList s.cells.toList) := by
  constructor
  · intro tuning xs w hstart hstop hxs
    have hw := Window.check_eq_ok_iff.2 ⟨hstart, hstop⟩
    obtain ⟨ys, calls, hreturns, hsize⟩ :=
      Scan.exists_returns .join tuning (xs.extract w.start w.stop)
    refine ⟨_, by rw [scanWith_eq tuning _ hw, hreturns.run]; rfl, ?_⟩
    rw [extract_overwrite_window hw hsize]
    exact in_order_of_returns hxs hreturns
  · intro threshold ht xs n hn hxs policy k
    obtain rfl := size_of_elems hxs
    obtain ⟨pool, s, calls, c, hrun, h⟩ := exists_inv (ε := ε) .join ht hn policy k
    have hS : (Setting.ofArray .join ht hn).Free := Setting.free_ofArray hxs hn
    refine ⟨pool, s, calls.toArray, hrun, h.adjacent hS, ?_⟩
    rintro rfl
    exact h.in_order hS

/-- Four elements in the middle of six, and three whose live visits are taken in a changing order. -/
theorem scan_in_order_four :
    (1 ≤ 5 ∧ 5 ≤ (#[.elem 7, .elem 0, .elem 1, .elem 2, .elem 3, .elem 7] : Array Grouping).size ∧
      ((#[.elem 7, .elem 0, .elem 1, .elem 2, .elem 3, .elem 7] : Array Grouping).extract 1 5).toList =
        (List.range (5 - 1)).map .elem ∧
      ∃ report, scanWith ⟨{ val := 2 }, { val := 1 }, { val := 1 }⟩
          (fun a b => (.ok (.join a b) : Except String Grouping))
          #[.elem 7, .elem 0, .elem 1, .elem 2, .elem 3, .elem 7] ⟨1, 5⟩ = .ok report ∧
        InOrder (5 - 1) report.calls.toList (report.result.values.extract 1 5).toList) ∧
    (0 < 1 ∧ 0 < 3 ∧
      (#[.elem 0, .elem 1, .elem 2] : Array Grouping).toList = (List.range 3).map .elem ∧
      ∃ s calls,
        ((Work.steps (Visit.step (Plan.ofLength 1 Nat.one_pos 3)) (fun k => k / 2) 70 [.enter 0]).run
            (Store.start (Plan.ofLength 1 Nat.one_pos 3) #[.elem 0, .elem 1, .elem 2])).run
          (fun a b => (.ok (.join a b) : Except String Grouping)) = .ok ⟨([], s), calls⟩ ∧
        (∀ call ∈ calls.toList, Adjacent 3 call) ∧ InOrder 3 calls.toList s.cells.toList) := by
  have hempty : (((Work.steps (Visit.step (Plan.ofLength 1 Nat.one_pos 3)) (fun k => k / 2) 70
      [.enter 0]).run (Store.start (Plan.ofLength 1 Nat.one_pos 3)
        #[.elem 0, .elem 1, .elem 2])).run
      (fun a b => (.ok (.join a b) : Except String Grouping))).toOption.map
    (fun r => r.result.1.length) = some 0 := by
    decide +kernel
  obtain ⟨hwindow, hpolicy⟩ := scan_in_order (ε := String)
  obtain ⟨pool, s, calls, hrun, hadjacent, hend⟩ := hpolicy 1 Nat.one_pos
    #[.elem 0, .elem 1, .elem 2] 3 (by decide) (by decide) (fun k => k / 2) 70
  obtain ⟨report, hreport, hpool⟩ := exists_report hempty
  obtain rfl := Except.ok.inj (hrun.symm.trans hreport)
  obtain rfl : pool = [] := List.eq_nil_of_length_eq_zero hpool
  refine ⟨⟨by decide, by decide, by decide, ?_⟩, Nat.one_pos, by decide, by decide, s, calls, hrun,
    hadjacent, hend rfl⟩
  exact hwindow ⟨{ val := 2 }, { val := 1 }, { val := 1 }⟩
    #[.elem 7, .elem 0, .elem 1, .elem 2, .elem 3, .elem 7] ⟨1, 5⟩ (by decide) (by decide) (by decide)

end ForkJoin.Scan

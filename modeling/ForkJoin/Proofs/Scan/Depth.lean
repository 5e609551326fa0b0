import ForkJoin.Tuning
import ForkJoin.Proofs.Scan.Frontier
import Mathlib.Tactic.Ring

/-!
# The split tree is balanced

Halving rounds down on one side and up on the other, at every level. But however often the window
is halved, a span at depth `d` is as long as the window divided by `2 ^ d`, rounded down or up:
`Halved`. So the leaves stand at two depths at most. That the leaves are many would take spans that
are just above the threshold, and the halves of such a span are well above half of it; this is why
the number of leaves, times what a leaf can hold and one more, stays below twice the length:
`count_mul_le`. The threshold grows with the length, so this is a bound by the number of workers.
-/
namespace ForkJoin.Scan

namespace Layout

variable {threshold len : Nat}

/-- How far below the root the node stands. -/
def depth (nodes : Layout) (t : Nat) : Nat :=
  match nodes[t]?.bind Node.parent with
  | some p => if p < t then nodes.depth p + 1 else 0
  | none => 0
termination_by t

theorem depth_of_parent {nodes : Layout} {t p : Nat} {n : Node} (hn : nodes[t]? = some n)
    (hp : n.parent = some p) (hlt : p < t) : nodes.depth t = nodes.depth p + 1 := by
  rw [depth, hn, Option.bind_some, hp]
  exact if_pos hlt

/-! ## Lengths -/

/-- The length of a part of `len` elements that was halved `d` times, up to rounding. -/
def Halved (len part d : Nat) : Prop := (part - 1) * 2 ^ d < len ∧ len < (part + 1) * 2 ^ d

theorem Halved.start (hlen : 0 < len) : Halved len len 0 := by
  unfold Halved
  omega

/-- Half of a part was halved once more. -/
theorem Halved.half {part half d : Nat} (h : Halved len part d) (hhalf : 0 < half)
    (hle : 2 * half ≤ part + 1) (hge : part ≤ 2 * half + 1) : Halved len half (d + 1) := by
  obtain ⟨hlow, hhigh⟩ := h
  constructor
  · calc (half - 1) * 2 ^ (d + 1) = (2 * (half - 1)) * 2 ^ d := by rw [Nat.pow_succ]; ring
      _ ≤ (part - 1) * 2 ^ d := Nat.mul_le_mul_right _ (by omega)
      _ < len := hlow
  · calc len < (part + 1) * 2 ^ d := hhigh
      _ ≤ (2 * (half + 1)) * 2 ^ d := Nat.mul_le_mul_right _ (by omega)
      _ = (half + 1) * 2 ^ (d + 1) := by rw [Nat.pow_succ]; ring

/-- A part that is short enough to be left whole was not halved less often than one that is not. -/
theorem Halved.depth_le {short long d e : Nat} (ht : 0 < threshold) (hs : Halved len short d)
    (hl : Halved len long e) (hshort : short ≤ threshold) (hlong : threshold < long) : e ≤ d := by
  refine Nat.le_of_not_lt fun hlt => ?_
  have hpow : 2 * 2 ^ d ≤ 2 ^ e := by
    rw [← Nat.pow_succ']
    exact Nat.pow_le_pow_right (by decide) hlt
  have : threshold * (2 * 2 ^ d) < (threshold + 1) * 2 ^ d :=
    calc threshold * (2 * 2 ^ d) ≤ (long - 1) * 2 ^ e := Nat.mul_le_mul (by omega) hpow
      _ < len := hl.1
      _ < (short + 1) * 2 ^ d := hs.2
      _ ≤ (threshold + 1) * 2 ^ d := Nat.mul_le_mul_right _ (by omega)
  rw [← Nat.mul_assoc] at this
  exact absurd (Nat.lt_of_mul_lt_mul_right this) (by omega)

/-! ## The number of leaves -/

/-- A window that is cut has few leaves for its length. -/
theorem count_mul_le (ht : 0 < threshold) (hlt : threshold < len) :
    (count threshold ht len + 1) * (threshold + 1) ≤ 4 * len := by
  induction len using Nat.strongRecOn with
  | ind len ih =>
    have hlow := ih (len / 2) (by omega)
    have hhigh := ih (len - len / 2) (by omega)
    rw [count_of_lt ht hlt, show ∀ a b, (1 + a + b + 1) * (threshold + 1) =
      (a + 1) * (threshold + 1) + (b + 1) * (threshold + 1) by intros; ring]
    by_cases hl : threshold < len / 2
    · have := hlow hl
      have := hhigh (by omega)
      omega
    · rw [count_of_le ht (Nat.le_of_not_lt hl)]
      by_cases hr : threshold < len - len / 2
      · -- one half is as long as the threshold, the other one longer by one
        have := hhigh hr
        omega
      · rw [count_of_le ht (Nat.le_of_not_lt hr)]
        omega

/-- All leaves are about as deep as each other and, if there are several, about as long. -/
structure Balanced (threshold len : Nat) (nodes : Layout) : Prop where
  depth : ∀ (t u : Nat) (a b : Node), nodes[t]? = some a → nodes[u]? = some b →
    a.children = none → b.children = none → nodes.depth t ≤ nodes.depth u + 1
  length : (∃ root : Node, nodes[0]? = some root ∧ root.children.isSome) →
    ∀ a ∈ nodes.leaves, (threshold + 1) / 2 ≤ a.span.len ∧ a.span.len ≤ threshold
  few : (∃ root : Node, nodes[0]? = some root ∧ root.children.isSome) →
    nodes.leaves.length * (threshold + 1) ≤ 2 * len

end Layout

namespace Plan

open Layout

variable {plan : Plan} {t u : Nat}

/-! ## Every node of a plan -/

theorem IsFamily.halved (hF : plan.IsFamily) (ht : t < plan.nodes.size) :
    Halved plan.len (plan.span t).len (plan.nodes.depth t) := by
  induction t using Nat.strongRecOn with
  | ind t ih =>
    by_cases h0 : t = 0
    · subst h0
      obtain ⟨n, hn, hspan, hp⟩ := hF.grown.root
      have hdepth : plan.nodes.depth 0 = 0 := by rw [depth, hn, Option.bind_some, hp]
      have hlen := hF.len_pos ht
      rw [hF.span_root] at hlen ⊢
      rw [hdepth]
      exact Halved.start hlen
    · obtain ⟨p, l, r, hcut, htlr⟩ := hF.exists_parent ht h0
      obtain ⟨n, hn, hp⟩ := hcut.parent htlr
      have hlt := hcut.lt_child hF htlr
      have hpos := hF.len_pos ht
      rw [depth_of_parent hn hp hlt]
      refine (ih p hlt hcut.lt_size).half hpos ?_ ?_
      all_goals
        rcases htlr with rfl | rfl
        · rw [hcut.span_left]; simp only [Span.lower]; omega
        · rw [hcut.span_right]; simp only [Span.upper]; omega

/-- Two leaves stand at most one level apart. -/
theorem IsFamily.depth_le (hF : plan.IsFamily) (ht : t < plan.nodes.size)
    (hu : u < plan.nodes.size) (hul : plan.IsLeaf u) :
    plan.nodes.depth t ≤ plan.nodes.depth u + 1 := by
  by_cases h0 : t = 0
  · subst h0
    obtain ⟨n, hn, _, hp⟩ := hF.grown.root
    rw [depth, hn, Option.bind_some, hp]
    exact Nat.zero_le _
  · obtain ⟨p, l, r, hcut, htlr⟩ := hF.exists_parent ht h0
    obtain ⟨n, hn, hp⟩ := hcut.parent htlr
    rw [depth_of_parent hn hp (hcut.lt_child hF htlr)]
    exact Nat.succ_le_succ
      ((hF.halved hu).depth_le hF.pos (hF.halved hcut.lt_size) hul hcut.lt_len)

/-- A leaf that is not the root is half of a span above the threshold. -/
theorem IsFamily.len_leaf (hF : plan.IsFamily) (ht : t < plan.nodes.size) (h0 : t ≠ 0) :
    (plan.threshold + 1) / 2 ≤ (plan.span t).len := by
  obtain ⟨p, l, r, hcut, htlr⟩ := hF.exists_parent ht h0
  have := hcut.lt_len
  rcases htlr with rfl | rfl
  · rw [hcut.span_left]; simp only [Span.lower]; omega
  · rw [hcut.span_right]; simp only [Span.upper]; omega

theorem IsFamily.isLeaf_of_childless (hF : plan.IsFamily) {a : Node}
    (ha : plan.nodes[t]? = some a) (hnone : a.children = none) : plan.IsLeaf t := by
  refine Nat.le_of_not_lt fun hlt => ?_
  rw [span_eq ha] at hlt
  have := (hF.children_isSome_iff ha).2 hlt
  rw [hnone] at this
  cases this

end Plan

namespace Layout

variable {threshold len : Nat}

/-- Whether the window is cut is a matter of its length. -/
theorem root_cut_iff (ht : 0 < threshold) (hlen : 0 < len) :
    (∃ root : Node, (grow threshold ht len)[0]? = some root ∧ root.children.isSome) ↔
      threshold < len := by
  have hF := Plan.isFamily_ofLength ht hlen
  obtain ⟨n, hn, hspan, _⟩ := hF.grown.root
  have hiff : n.children.isSome ↔ threshold < n.span.len := hF.children_isSome_iff hn
  rw [show n.span.len = len by rw [hspan]; rfl] at hiff
  rw [← hiff]
  constructor
  · rintro ⟨m, hm, hsome⟩
    rwa [← Option.some.inj (hm.symm.trans hn)]
  · exact fun hsome => ⟨n, hn, hsome⟩

theorem leaves_mul_le (ht : 0 < threshold) (hlt : threshold < len) :
    (grow threshold ht len).leaves.length * (threshold + 1) ≤ 2 * len := by
  have hsize := (frontier_grow ht len).size
  have hcount := count_mul_le ht hlt
  rw [size_grow] at hsize
  rw [hsize, Nat.mul_assoc] at hcount
  omega

theorem balanced_grow (ht : 0 < threshold) (hlen : 0 < len) :
    (grow threshold ht len).Balanced threshold len := by
  have hF := Plan.isFamily_ofLength ht hlen
  refine ⟨fun t u a b ha hb hat hbu => ?_, fun hroot a ha => ?_, fun hroot => ?_⟩
  · exact hF.depth_le (Array.getElem?_eq_some_iff.1 ha).1 (Array.getElem?_eq_some_iff.1 hb).1
      (hF.isLeaf_of_childless hb hbu)
  · obtain ⟨hmem, hnone⟩ := List.mem_filter.1 ha
    obtain ⟨t, ht', hta⟩ := Array.getElem_of_mem (Array.mem_toList_iff.1 hmem)
    have hget : (grow threshold ht len)[t]? = some a := by rw [Array.getElem?_eq_getElem ht', hta]
    have hleaf := hF.isLeaf_of_childless hget (Option.isNone_iff_eq_none.1 hnone)
    have hspan : (Plan.ofLength threshold ht len).span t = a.span := Plan.span_eq hget
    have hcut := (root_cut_iff ht hlen).1 hroot
    have h0 : t ≠ 0 := by
      rintro rfl
      rw [Plan.IsLeaf, hF.span_root] at hleaf
      exact Nat.not_lt.2 hleaf hcut
    rw [Plan.IsLeaf] at hleaf
    have hlong := hF.len_leaf ht' h0
    rw [hspan] at hleaf hlong
    exact ⟨hlong, hleaf⟩
  · exact leaves_mul_le ht ((root_cut_iff ht hlen).1 hroot)

end Layout

/-! ## The threshold of a tuning -/

theorem lt_times_mul (tuning : Tuning) (len : Nat) :
    len < tuning.parallelism.times 8 * (tuning.scanThreshold len + 1) := by
  have hdiv := Nat.div_add_mod len (tuning.parallelism.times 8)
  have hmod := Nat.mod_lt len (tuning.parallelism.times_pos (by decide : 0 < 8))
  have hle : len / tuning.parallelism.times 8 ≤ tuning.scanThreshold len := Nat.le_max_left _ _
  calc len < tuning.parallelism.times 8 * (len / tuning.parallelism.times 8 + 1) := by
        rw [Nat.mul_succ]; omega
    _ ≤ _ := Nat.mul_le_mul_left _ (Nat.succ_le_succ hle)

/-- **The split tree of a scan is balanced, and no larger than the number of workers asks for.** -/
theorem balanced_scanThreshold (tuning : Tuning) {len : Nat} (hlen : 0 < len) :
    0 < tuning.scanThreshold len ∧
    (Plan.ofLength _ (tuning.scanThreshold_pos len) len).nodes.Balanced
      (tuning.scanThreshold len) len ∧
    (Plan.ofLength _ (tuning.scanThreshold_pos len) len).nodes.leaves.length <
      16 * tuning.parallelism.val := by
  have ht := tuning.scanThreshold_pos len
  refine ⟨ht, Layout.balanced_grow ht hlen, ?_⟩
  have hsize := (Layout.frontier_grow ht len).size
  have hworkers := tuning.parallelism.pos
  change (Layout.grow _ ht len).leaves.length < _
  by_cases hlt : tuning.scanThreshold len < len
  · have hfew := Layout.leaves_mul_le ht hlt
    have hlen := lt_times_mul tuning len
    have htimes : tuning.parallelism.times 8 ≤ tuning.parallelism.val * 8 := Nat.min_le_left _ _
    refine Nat.lt_of_mul_lt_mul_right (a := tuning.scanThreshold len + 1) ?_
    calc _ ≤ 2 * len := hfew
      _ < 2 * (tuning.parallelism.times 8 * (tuning.scanThreshold len + 1)) := by omega
      _ ≤ 2 * (tuning.parallelism.val * 8 * (tuning.scanThreshold len + 1)) :=
        Nat.mul_le_mul_left _ (Nat.mul_le_mul_right _ htimes)
      _ = _ := by ring
  · rw [Layout.size_grow, Layout.count_of_le ht (Nat.le_of_not_lt hlt)] at hsize
    omega

/-- A million elements for four workers are cut above 31250 elements. -/
theorem balanced_million : 0 < 1000000 ∧
    (Tuning.ofThreads { val := 4 }).scanThreshold 1000000 = 31250 ∧
    (Plan.ofLength _ ((Tuning.ofThreads { val := 4 }).scanThreshold_pos 1000000)
      1000000).nodes.Balanced ((Tuning.ofThreads { val := 4 }).scanThreshold 1000000) 1000000 :=
  ⟨by decide, by decide, (balanced_scanThreshold (.ofThreads { val := 4 }) (by decide)).2.1⟩

end ForkJoin.Scan

import ForkJoin.Scan.Store
import ForkJoin.Proofs.Scan.Family
import Mathlib.Data.List.Perm.Basic
import Mathlib.Logic.Function.Iterate

/-!
# The leaves of a layout

While a layout grows, its nodes without children always tile the window: a turn of the loop leaves
them alone, or puts the two halves of a node in its place. So there is one leaf more for every two
nodes that are appended, and the leaves at the end, from left to right, are the window without gap
or overlap: `frontier_grow`. `isSplitTree_ofLength` puts this together with what `grownTo_grow` and
`kinship_grow` tell of parents and children, and says after how many turns the loop ends.
-/
namespace ForkJoin.Scan

namespace Layout

variable {threshold len i : Nat} {nodes : Layout}

/-- The nodes without children. -/
def leaves (nodes : Layout) : List Node := nodes.toList.filter (·.children.isNone)

/-! ## Splitting a leaf -/

/-- The nodes without children other than the one at index `i`. -/
def leavesBut (nodes : Layout) (i : Nat) : List Node :=
  (nodes.toList.eraseIdx i).filter (·.children.isNone)

theorem leaves_perm (hi : i < nodes.size) (hnone : nodes[i].children = none) :
    nodes.leaves.Perm (nodes[i] :: nodes.leavesBut i) := by
  have hi' : i < nodes.toList.length := by rwa [Array.length_toList]
  have h := ((List.getElem_cons_eraseIdx_perm hi').filter (·.children.isNone)).symm
  rwa [Array.getElem_toList, List.filter_cons_of_pos (by rw [hnone]; rfl)] at h

/-- The halves of a node take its place. -/
theorem leaves_split (hi : i < nodes.size) : (nodes.split i nodes[i]).leaves.Perm
    ({ span := nodes[i].span.lower, parent := some i } ::
      { span := nodes[i].span.upper, parent := some i } :: nodes.leavesBut i) := by
  have hi' : i < nodes.toList.length := by rwa [Array.length_toList]
  have h := (List.set_perm_cons_eraseIdx hi'
    { nodes[i] with children := some (nodes.size, nodes.size + 1) }).filter (·.children.isNone)
  rw [List.filter_cons_of_neg (by simp)] at h
  unfold leaves split
  simp only [Array.toList_push, Array.toList_setIfInBounds, List.filter_append, List.append_assoc]
  exact (h.append_right _).trans List.perm_append_comm

/-! ## The frontier -/

/-- The nodes without children tile the window, and are one more than the others. -/
structure Frontier (len : Nat) (nodes : Layout) : Prop where
  tiles : ∃ order : List Node, order.Perm nodes.leaves ∧
    order.flatMap (·.span.positions) = List.range len
  size : nodes.size + 1 = 2 * nodes.leaves.length

theorem Frontier.split (h : Frontier len nodes) (hi : i < nodes.size)
    (hnone : nodes[i].children = none) : Frontier len (nodes.split i nodes[i]) := by
  have hperm := leaves_perm hi hnone
  refine ⟨?_, ?_⟩
  · obtain ⟨order, horder, htiles⟩ := h.tiles
    have hmem : nodes[i] ∈ order := (horder.trans hperm).mem_iff.2 List.mem_cons_self
    obtain ⟨before, after, rfl⟩ := List.append_of_mem hmem
    have hrest : (before ++ after).Perm (nodes.leavesBut i) :=
      (List.perm_middle.symm.trans (horder.trans hperm)).cons_inv
    -- the halves stand where the node stood
    refine ⟨before ++ { span := nodes[i].span.lower, parent := some i } ::
      { span := nodes[i].span.upper, parent := some i } :: after, ?_, ?_⟩
    · refine List.Perm.trans ?_ (leaves_split hi).symm
      exact List.perm_middle.trans ((List.perm_middle.trans (hrest.cons _)).cons _)
    · rw [← htiles]
      simp only [List.flatMap_append, List.flatMap_cons, ← List.append_assoc]
      rw [List.append_assoc (before.flatMap _), Span.positions_halves]
  · have hsize := h.size
    rw [hperm.length_eq, List.length_cons] at hsize
    rw [(leaves_split hi).length_eq, List.length_cons, List.length_cons]
    simp only [Layout.split, Array.size_push, Array.size_setIfInBounds]
    omega

theorem Frontier.growFrom (ht : 0 < threshold) (h : Frontier len nodes)
    (hkin : Kinship threshold nodes i) : Frontier len (growFrom threshold ht nodes i) := by
  fun_induction Layout.growFrom threshold ht nodes i with
  | case1 nodes i hi hlt ih =>
    have hnone := hkin.childless i _ (Array.getElem?_eq_getElem hi) (Nat.le_refl i)
    exact ih (h.split hi hnone) (hkin.split hi hlt)
  | case2 nodes i hi hle ih => exact ih h hkin.skip
  | case3 nodes i hi => exact h

theorem frontier_grow (ht : 0 < threshold) (len : Nat) : Frontier len (grow threshold ht len) := by
  refine Frontier.growFrom ht ⟨⟨[{ span := ⟨0, len⟩ }], .refl _, ?_⟩, rfl⟩ (Kinship.start len)
  simp [Span.positions, List.range_eq_range']

/-! ## The two children of a node -/

/-- The children of a node stand at two consecutive indexes. -/
def Adjoining (nodes : Layout) : Prop :=
  ∀ (t : Nat) (n : Node) (l r : Nat), nodes[t]? = some n → n.children = some (l, r) → r = l + 1

theorem Adjoining.split (h : nodes.Adjoining) (hi : i < nodes.size) :
    (nodes.split i nodes[i]).Adjoining := by
  intro t n l r hn hc
  rcases split_cases hi hn with ⟨rfl, rfl⟩ | ⟨rfl, rfl⟩ | ⟨rfl, rfl⟩ | ⟨_, hn⟩
  · obtain ⟨rfl, rfl⟩ := Prod.mk.inj (Option.some.inj hc)
    rfl
  · cases hc
  · cases hc
  · exact h t n l r hn hc

theorem Adjoining.growFrom (ht : 0 < threshold) (h : nodes.Adjoining) :
    (growFrom threshold ht nodes i).Adjoining := by
  fun_induction Layout.growFrom threshold ht nodes i with
  | case1 nodes i hi hlt ih => exact ih (h.split hi)
  | case2 nodes i hi hle ih => exact ih h
  | case3 nodes i hi => exact h

theorem adjoining_grow (ht : 0 < threshold) (len : Nat) : (grow threshold ht len).Adjoining := by
  refine Adjoining.growFrom ht fun t n l r hn hc => ?_
  obtain ⟨ht, rfl⟩ := Array.getElem?_eq_some_iff.1 hn
  obtain rfl : t = 0 := by simpa using ht
  cases hc

/-! ## The loop, turn by turn -/

/-- One turn of the loop: looks at the next node, if there is one, and splits it if it is too
long. -/
def turn (threshold : Nat) (work : Layout × Nat) : Layout × Nat :=
  if hi : work.2 < work.1.size then
    if threshold < work.1[work.2].span.len then
      (work.1.split work.2 work.1[work.2], work.2 + 1)
    else (work.1, work.2 + 1)
  else work

theorem le_size_growFrom (ht : 0 < threshold) (nodes : Layout) (i : Nat) :
    nodes.size ≤ (growFrom threshold ht nodes i).size := by
  rw [size_growFrom]
  exact Nat.le_add_right _ _

theorem turn_split (hi : i < nodes.size) (hlt : threshold < nodes[i].span.len) :
    turn threshold (nodes, i) = (nodes.split i nodes[i], i + 1) := by
  simp only [turn, hi, hlt, dite_true, if_true]

theorem turn_skip (hi : i < nodes.size) (hle : ¬ threshold < nodes[i].span.len) :
    turn threshold (nodes, i) = (nodes, i + 1) := by
  simp only [turn, hi, hle, dite_true, if_false]

/-- The loop ends after as many turns as there are nodes to look at. -/
theorem iterate_turn (ht : 0 < threshold) (hstart : i ≤ nodes.size) :
    (turn threshold)^[(growFrom threshold ht nodes i).size - i] (nodes, i) =
      (growFrom threshold ht nodes i, (growFrom threshold ht nodes i).size) := by
  fun_induction Layout.growFrom threshold ht nodes i with
  | case1 nodes i hi hlt ih =>
    have hsplit : i + 1 ≤ (nodes.split i nodes[i]).size := by
      simp only [Layout.split, Array.size_push, Array.size_setIfInBounds]; omega
    have hsize := le_size_growFrom ht (nodes.split i nodes[i]) (i + 1)
    rw [← Nat.succ_sub_succ, Nat.succ_sub (by omega), Function.iterate_succ_apply,
      turn_split hi hlt, ih hsplit]
  | case2 nodes i hi hle ih =>
    have hsize := le_size_growFrom ht nodes (i + 1)
    rw [← Nat.succ_sub_succ, Nat.succ_sub (by omega), Function.iterate_succ_apply,
      turn_skip hi hle, ih hi]
  | case3 nodes i hi =>
    obtain rfl : i = nodes.size := by omega
    rw [Nat.sub_self, Function.iterate_zero, id]

theorem iterate_turn_grow (ht : 0 < threshold) (len : Nat) :
    (turn threshold)^[(grow threshold ht len).size] (#[{ span := ⟨0, len⟩ }], 0) =
      (grow threshold ht len, (grow threshold ht len).size) :=
  iterate_turn ht (Nat.zero_le _)

/-! ## The layout as a whole -/

/-- The node `t` is a child of the node `p`. -/
def IsChild (nodes : Layout) (p t : Nat) : Prop :=
  ∃ (n : Node) (l r : Nat), nodes[p]? = some n ∧ n.children = some (l, r) ∧ (t = l ∨ t = r)

/-- The nodes are the split tree of `len` elements, laid out flat. -/
structure IsSplitTree (threshold len : Nat) (nodes : Layout) : Prop where
  root : ∃ n : Node, nodes[0]? = some n ∧ n.span = ⟨0, len⟩ ∧ n.parent = none
  orphan : ∀ p, ¬ nodes.IsChild p 0
  /-- Any other node is a child of its parent, and of no other node. -/
  parent : ∀ (t : Nat) (n : Node), nodes[t]? = some n → t ≠ 0 →
    ∃ p, n.parent = some p ∧ p < t ∧ ∀ q, nodes.IsChild q t ↔ q = p
  cut : ∀ (t : Nat) (n : Node), nodes[t]? = some n →
    (n.children.isSome ↔ threshold < n.span.len)
  /-- The children share the span of the node at its middle. -/
  halves : ∀ (t : Nat) (n : Node) (l r : Nat), nodes[t]? = some n → n.children = some (l, r) →
    r = l + 1 ∧ ∃ a b : Node, nodes[l]? = some a ∧ nodes[r]? = some b ∧
      0 < a.span.len ∧ 0 < b.span.len ∧
      a.span.start = n.span.start ∧ a.span.stop = n.span.start + n.span.len / 2 ∧
      b.span.start = n.span.start + n.span.len / 2 ∧ b.span.stop = n.span.stop
  /-- From left to right, the leaves are the window. -/
  tiles : ∃ order : List Node, order.Perm nodes.leaves ∧
    order.flatMap (·.span.positions) = List.range len
  size : nodes.size + 1 = 2 * nodes.leaves.length

end Layout

namespace Plan

variable {plan : Plan} {threshold len p t : Nat}

/-- What has a child is cut. -/
theorem IsFamily.exists_cut_of_child (hF : plan.IsFamily) (h : plan.nodes.IsChild p t) :
    ∃ l r, plan.Cut p l r ∧ (t = l ∨ t = r) := by
  obtain ⟨n, l, r, hn, hc, htlr⟩ := h
  obtain ⟨l', nl, r', nr, H⟩ := hF.exists_halves hn (hF.kin.long p n _ hn hc)
  obtain ⟨rfl, rfl⟩ := Prod.mk.inj (Option.some.inj (hc.symm.trans H.children))
  exact ⟨l, r, ⟨n, nl, nr, H⟩, htlr⟩

/-- A node that is not the root is a child of the parent it names, and of no other node. -/
theorem IsFamily.parent_of_ne_zero (hF : plan.IsFamily) {n : Node}
    (hn : plan.nodes[t]? = some n) (h0 : t ≠ 0) :
    ∃ p, n.parent = some p ∧ p < t ∧ ∀ q, plan.nodes.IsChild q t ↔ q = p := by
  have hsize := (Array.getElem?_eq_some_iff.1 hn).1
  obtain ⟨p, l, r, hcut, htlr⟩ := hF.exists_parent hsize h0
  obtain ⟨n', hn', hp⟩ := hcut.parent htlr
  obtain rfl := Option.some.inj (hn.symm.trans hn')
  refine ⟨p, hp, hcut.lt_child hF htlr, fun q => ⟨fun hq => ?_, ?_⟩⟩
  · obtain ⟨l', r', hcut', htlr'⟩ := hF.exists_cut_of_child hq
    exact hcut'.parent_unique hcut htlr' htlr
  · rintro rfl
    obtain ⟨m, hm, _, hc, _⟩ := hcut.node
    exact ⟨m, l, r, hm, hc, htlr⟩

theorem IsFamily.children_isSome_iff (hF : plan.IsFamily) {n : Node}
    (hn : plan.nodes[t]? = some n) : n.children.isSome ↔ plan.threshold < n.span.len := by
  constructor
  · intro h
    obtain ⟨c, hc⟩ := Option.isSome_iff_exists.1 h
    exact hF.kin.long t n c hn hc
  · intro hlt
    obtain ⟨l, nl, r, nr, H⟩ := hF.exists_halves hn hlt
    rw [H.children, Option.isSome_some]

theorem IsFamily.isSplitTree (hF : plan.IsFamily) (hadj : plan.nodes.Adjoining)
    (hfront : plan.nodes.Frontier plan.len) : plan.nodes.IsSplitTree plan.threshold plan.len where
  root := hF.grown.root
  orphan p h := by
    obtain ⟨l, r, hcut, h0⟩ := hF.exists_cut_of_child h
    exact absurd (hcut.lt_child hF h0) (Nat.not_lt_zero p)
  parent t n hn h0 := hF.parent_of_ne_zero hn h0
  cut t n hn := hF.children_isSome_iff hn
  halves t n l r hn hc := by
    obtain ⟨l', nl, r', nr, H⟩ := hF.exists_halves hn (hF.kin.long t n _ hn hc)
    obtain ⟨rfl, rfl⟩ := Prod.mk.inj (Option.some.inj (hc.symm.trans H.children))
    refine ⟨hadj t n l r hn hc, nl, nr, H.left, H.right, (H.len_left hF.toIsTree).1,
      (H.len_right hF.toIsTree).1, H.start_left, ?_, ?_, ?_⟩
    · rw [H.left_span]; rfl
    · rw [H.right_span]; rfl
    · rw [H.right_span, Span.stop_upper]
  tiles := hfront.tiles
  size := hfront.size

end Plan

open Layout in
/-- **A plan lays out a split tree of its elements**, in a loop that looks at each node once, and
every node has a phase and two slots to hand sums over by. -/
theorem isSplitTree_ofLength {threshold len : Nat} (ht : 0 < threshold) (hlen : 0 < len) :
    (turn threshold)^[(Plan.ofLength threshold ht len).nodes.size] (#[{ span := ⟨0, len⟩ }], 0) =
      ((Plan.ofLength threshold ht len).nodes, (Plan.ofLength threshold ht len).nodes.size) ∧
    (Plan.ofLength threshold ht len).nodes.IsSplitTree threshold len ∧
    ∀ (α : Type) (xs : Array α),
      (Store.start (Plan.ofLength threshold ht len) xs).phases.size =
        (Plan.ofLength threshold ht len).nodes.size ∧
      (Store.start (Plan.ofLength threshold ht len) xs).carries.size =
        (Plan.ofLength threshold ht len).nodes.size ∧
      (Store.start (Plan.ofLength threshold ht len) xs).sums.size =
        (Plan.ofLength threshold ht len).nodes.size := by
  refine ⟨?_, ?_, fun α xs => ?_⟩
  · exact iterate_turn_grow ht len
  · exact (Plan.isFamily_ofLength ht hlen).isSplitTree (adjoining_grow ht len)
      (frontier_grow ht len)
  · simp [Store.start]

open Layout in
/-- Seven elements and pieces of at most two: four leaves below three nodes that are cut. -/
theorem isSplitTree_seven : 0 < 2 ∧ 0 < 7 ∧
    (Plan.ofLength 2 (by decide) 7).nodes.IsSplitTree 2 7 :=
  ⟨by decide, by decide, (isSplitTree_ofLength (by decide) (by decide)).2.1⟩

end ForkJoin.Scan

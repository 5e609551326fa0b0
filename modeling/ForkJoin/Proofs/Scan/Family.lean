import ForkJoin.Proofs.Scan.Halves

/-!
# Parents and children

In the layout of a scan every node but the first is a child of the parent it names, and only nodes
that are cut have children: `kinship_grow`. So a walk upwards finds itself at a node that is cut,
coming from one of its two halves. `Plan.Cut` says of three indexes that they are a node and its
halves, and `Plan.span` is the span of a node, given by its index.
-/
namespace ForkJoin.Scan

namespace Layout

variable {threshold : Nat} {nodes : Layout} {i : Nat}

/-- Who is whose parent. The nodes from index `i` on have no children yet. -/
structure Kinship (threshold : Nat) (nodes : Layout) (i : Nat) : Prop where
  orphan : ∀ (t : Nat) (n : Node), nodes[t]? = some n → n.parent = none → t = 0
  child : ∀ (t p : Nat) (n : Node), nodes[t]? = some n → n.parent = some p → p < t ∧
    ∃ (m : Node) (l r : Nat), nodes[p]? = some m ∧ m.children = some (l, r) ∧ (t = l ∨ t = r)
  long : ∀ (t : Nat) (n : Node) (c : Nat × Nat), nodes[t]? = some n → n.children = some c →
    threshold < n.span.len
  childless : ∀ (t : Nat) (n : Node), nodes[t]? = some n → i ≤ t → n.children = none

theorem Kinship.skip (h : Kinship threshold nodes i) : Kinship threshold nodes (i + 1) :=
  ⟨h.orphan, h.child, h.long, fun t n hn hi => h.childless t n hn (by omega)⟩

/-- The next node gets children. -/
theorem Kinship.split (h : Kinship threshold nodes i) (hi : i < nodes.size)
    (hlt : threshold < nodes[i].span.len) : Kinship threshold (nodes.split i nodes[i]) (i + 1) := by
  have hself : nodes[i]? = some nodes[i] := Array.getElem?_eq_getElem hi
  have hnone := h.childless i _ hself (Nat.le_refl i)
  -- the parent of an old node is another one than the node that got children
  have old : ∀ (t p : Nat) (n : Node), nodes[t]? = some n → n.parent = some p → p < t ∧
      ∃ (m : Node) (l r : Nat), (nodes.split i nodes[i])[p]? = some m ∧
        m.children = some (l, r) ∧ (t = l ∨ t = r) := by
    intro t p n hn hp
    obtain ⟨hlt, m, l, r, hm, hc, htlr⟩ := h.child t p n hn hp
    have hpi : p ≠ i := by
      rintro rfl
      rw [hself, Option.some.injEq] at hm
      rw [← hm, hnone] at hc
      cases hc
    exact ⟨hlt, m, l, r, getElem?_split_of_ne hi hpi hm, hc, htlr⟩
  constructor
  case orphan =>
    intro t n hn hp
    rcases split_cases hi hn with ⟨rfl, rfl⟩ | ⟨rfl, rfl⟩ | ⟨rfl, rfl⟩ | ⟨_, hn⟩
    · exact h.orphan t _ hself hp
    · cases hp
    · cases hp
    · exact h.orphan t n hn hp
  case child =>
    intro t p n hn hp
    rcases split_cases hi hn with ⟨rfl, rfl⟩ | ⟨rfl, rfl⟩ | ⟨rfl, rfl⟩ | ⟨_, hn⟩
    · exact old t p _ hself hp
    · obtain rfl := Option.some.inj hp
      exact ⟨hi, _, _, _, getElem?_split_self hi, rfl, .inl rfl⟩
    · obtain rfl := Option.some.inj hp
      exact ⟨by omega, _, _, _, getElem?_split_self hi, rfl, .inr rfl⟩
    · exact old t p n hn hp
  case long =>
    intro t n c hn hc
    rcases split_cases hi hn with ⟨rfl, rfl⟩ | ⟨rfl, rfl⟩ | ⟨rfl, rfl⟩ | ⟨_, hn⟩
    · exact hlt
    · cases hc
    · cases hc
    · exact h.long t n c hn hc
  case childless =>
    intro t n hn hit
    rcases split_cases hi hn with ⟨rfl, rfl⟩ | ⟨rfl, rfl⟩ | ⟨rfl, rfl⟩ | ⟨_, hn⟩
    · omega
    · rfl
    · rfl
    · exact h.childless t n hn (by omega)

theorem Kinship.growFrom (ht : 0 < threshold) (h : Kinship threshold nodes i) :
    Kinship threshold (growFrom threshold ht nodes i) (growFrom threshold ht nodes i).size := by
  fun_induction Layout.growFrom threshold ht nodes i with
  | case1 nodes i hi hlt ih => exact ih (h.split hi hlt)
  | case2 nodes i hi hle ih => exact ih h.skip
  | case3 nodes i hi =>
    refine ⟨h.orphan, h.child, h.long, fun t n hn hsize => ?_⟩
    exact absurd (Array.getElem?_eq_some_iff.1 hn).1 (Nat.not_lt.2 hsize)

theorem Kinship.start (len : Nat) : Kinship threshold #[{ span := ⟨0, len⟩ }] 0 := by
  refine ⟨fun t n hn _ => ?_, fun t p n hn hp => ?_, fun t n c hn hc => ?_, fun t n hn _ => ?_⟩
  all_goals
    obtain ⟨ht, rfl⟩ := Array.getElem?_eq_some_iff.1 hn
    obtain rfl : t = 0 := by simpa using ht
    first | rfl | cases hp | cases hc

/-- **Every node of a layout but the first is a child of its parent.** -/
theorem kinship_grow (ht : 0 < threshold) (len : Nat) :
    Kinship threshold (grow threshold ht len) (grow threshold ht len).size :=
  (Kinship.start len).growFrom ht

end Layout

namespace Plan

variable {plan : Plan} {t l r l' r' p : Nat}

/-- The span of a node. -/
def span (plan : Plan) (t : Nat) : Span := (plan.nodes[t]?.map Node.span).getD ⟨0, 0⟩

/-- The children of a node that is cut. -/
def kids (plan : Plan) (t : Nat) : Nat × Nat := (plan.nodes[t]?.bind Node.children).getD (0, 0)

/-- The node was cut, into `l` and `r`. -/
def Cut (plan : Plan) (t l r : Nat) : Prop := ∃ n nl nr, plan.Halves t n l nl r nr

/-- The node is a leaf. -/
def IsLeaf (plan : Plan) (t : Nat) : Prop := (plan.span t).len ≤ plan.threshold

instance (plan : Plan) (t : Nat) : Decidable (plan.IsLeaf t) :=
  inferInstanceAs (Decidable (_ ≤ _))

/-- Nothing precedes the node. -/
def isFirst (plan : Plan) (t : Nat) : Bool := (plan.span t).start == 0

theorem span_eq {n : Node} (hn : plan.nodes[t]? = some n) : plan.span t = n.span := by
  rw [span, hn, Option.map_some, Option.getD_some]

theorem exists_node (ht : t < plan.nodes.size) :
    ∃ n, plan.nodes[t]? = some n ∧ n.span = plan.span t :=
  ⟨_, Array.getElem?_eq_getElem ht, (span_eq (Array.getElem?_eq_getElem ht)).symm⟩

/-- The nodes are a split tree, whose parents and children know each other. -/
structure IsFamily (plan : Plan) : Prop extends plan.IsTree where
  kin : plan.nodes.Kinship plan.threshold plan.nodes.size

theorem isFamily_ofLength {threshold : Nat} (ht : 0 < threshold) {len : Nat} (hlen : 0 < len) :
    (Plan.ofLength threshold ht len).IsFamily :=
  ⟨⟨ht, Layout.grownTo_grow ht hlen⟩, Layout.kinship_grow ht len⟩

theorem IsFamily.size_pos (hF : plan.IsFamily) : 0 < plan.nodes.size := by
  obtain ⟨n, hn, _⟩ := hF.grown.root
  exact (Array.getElem?_eq_some_iff.1 hn).1

theorem IsFamily.span_root (hF : plan.IsFamily) : plan.span 0 = ⟨0, plan.len⟩ := by
  obtain ⟨n, hn, hspan, _⟩ := hF.grown.root
  rw [span_eq hn, hspan]

theorem IsFamily.len_pos (hF : plan.IsFamily) (ht : t < plan.nodes.size) :
    0 < (plan.span t).len := by
  obtain ⟨n, hn, hspan⟩ := exists_node ht
  exact hspan ▸ hF.grown.nonempty t n hn

theorem IsFamily.stop_le (hF : plan.IsFamily) (ht : t < plan.nodes.size) :
    (plan.span t).stop ≤ plan.len := by
  obtain ⟨n, hn, hspan⟩ := exists_node ht
  exact hspan ▸ hF.grown.bounded t n hn

/-- What is no leaf is cut. -/
theorem IsFamily.exists_cut (hF : plan.IsFamily) (ht : t < plan.nodes.size)
    (hleaf : ¬ plan.IsLeaf t) : ∃ l r, plan.Cut t l r := by
  obtain ⟨n, hn, hspan⟩ := exists_node ht
  obtain ⟨l, nl, r, nr, H⟩ := hF.exists_halves hn (by rw [hspan]; exact Nat.not_le.1 hleaf)
  exact ⟨l, r, n, nl, nr, H⟩

namespace Cut

theorem node (h : plan.Cut t l r) : ∃ n, plan.nodes[t]? = some n ∧
    plan.threshold < n.span.len ∧ n.children = some (l, r) ∧ n.span = plan.span t := by
  obtain ⟨n, nl, nr, H⟩ := h
  exact ⟨n, H.node, H.lt, H.children, (span_eq H.node).symm⟩

theorem not_leaf (h : plan.Cut t l r) : ¬ plan.IsLeaf t := by
  obtain ⟨n, hn, hlt, _, hspan⟩ := h.node
  rw [IsLeaf, ← hspan]
  omega

theorem lt_size (h : plan.Cut t l r) : t < plan.nodes.size := by
  obtain ⟨n, hn, _⟩ := h.node
  exact (Array.getElem?_eq_some_iff.1 hn).1

theorem kids_eq (h : plan.Cut t l r) : plan.kids t = (l, r) := by
  obtain ⟨n, hn, _, hc, _⟩ := h.node
  rw [kids, hn, Option.bind_some, hc, Option.getD_some]

theorem unique (h : plan.Cut t l r) (h' : plan.Cut t l' r') : l = l' ∧ r = r' := by
  have := h.kids_eq.symm.trans h'.kids_eq
  exact Prod.mk.inj this

theorem left_lt_size (h : plan.Cut t l r) : l < plan.nodes.size := by
  obtain ⟨n, nl, nr, H⟩ := h
  exact (Array.getElem?_eq_some_iff.1 H.left).1

theorem right_lt_size (h : plan.Cut t l r) : r < plan.nodes.size := by
  obtain ⟨n, nl, nr, H⟩ := h
  exact (Array.getElem?_eq_some_iff.1 H.right).1

theorem child_lt_size (h : plan.Cut p l r) (ht : t = l ∨ t = r) : t < plan.nodes.size :=
  ht.elim (· ▸ h.left_lt_size) (· ▸ h.right_lt_size)

theorem span_left (h : plan.Cut t l r) : plan.span l = (plan.span t).lower := by
  obtain ⟨n, nl, nr, H⟩ := h
  rw [span_eq H.left, H.left_span, span_eq H.node]

theorem span_right (h : plan.Cut t l r) : plan.span r = (plan.span t).upper := by
  obtain ⟨n, nl, nr, H⟩ := h
  rw [span_eq H.right, H.right_span, span_eq H.node]

theorem lt_len (h : plan.Cut t l r) : plan.threshold < (plan.span t).len :=
  Nat.not_le.1 h.not_leaf

theorem isFirst_left (h : plan.Cut t l r) : plan.isFirst l = plan.isFirst t := by
  rw [isFirst, isFirst, h.span_left, Span.start_lower]

theorem isFirst_right (h : plan.Cut t l r) (hF : plan.IsFamily) : plan.isFirst r = false := by
  have := h.lt_len
  have := hF.pos
  simp only [isFirst, h.span_right, Span.upper, beq_eq_false_iff_ne]
  omega

theorem isLast_left (h : plan.Cut t l r) (hF : plan.IsFamily) :
    plan.isLast (plan.span l) = false := by
  obtain ⟨n, nl, nr, H⟩ := h
  rw [span_eq H.left]
  exact H.left_not_last hF.toIsTree

theorem isLast_right (h : plan.Cut t l r) :
    plan.isLast (plan.span r) = plan.isLast (plan.span t) := by
  obtain ⟨n, nl, nr, H⟩ := h
  rw [span_eq H.right, H.right_last, span_eq H.node]

theorem parent_left (h : plan.Cut t l r) : ∃ n, plan.nodes[l]? = some n ∧ n.parent = some t := by
  obtain ⟨n, nl, nr, H⟩ := h
  exact ⟨nl, H.left, H.left_parent⟩

theorem parent_right (h : plan.Cut t l r) : ∃ n, plan.nodes[r]? = some n ∧ n.parent = some t := by
  obtain ⟨n, nl, nr, H⟩ := h
  exact ⟨nr, H.right, H.right_parent⟩

theorem parent (h : plan.Cut p l r) (ht : t = l ∨ t = r) :
    ∃ n, plan.nodes[t]? = some n ∧ n.parent = some p := by
  rcases ht with rfl | rfl
  · exact h.parent_left
  · exact h.parent_right

theorem lt_child (h : plan.Cut p l r) (hF : plan.IsFamily) (ht : t = l ∨ t = r) : p < t := by
  obtain ⟨n, hn, hp⟩ := h.parent ht
  exact (hF.kin.child t p n hn hp).1

/-- A node is a child of one node only. -/
theorem parent_unique {p' : Nat} (h : plan.Cut p l r) (h' : plan.Cut p' l' r')
    (ht : t = l ∨ t = r) (ht' : t = l' ∨ t = r') : p = p' := by
  obtain ⟨n, hn, hp⟩ := h.parent ht
  obtain ⟨n', hn', hp'⟩ := h'.parent ht'
  obtain rfl := Option.some.inj (hn.symm.trans hn')
  exact Option.some.inj (hp.symm.trans hp')

theorem left_ne_right (h : plan.Cut t l r) (hF : plan.IsFamily) : l ≠ r := by
  obtain ⟨n, nl, nr, H⟩ := h
  exact (H.right_ne_left hF.toIsTree).symm

end Cut

/-- A node that is not the root is a half of the node above it. -/
theorem IsFamily.exists_parent (hF : plan.IsFamily) (ht : t < plan.nodes.size) (h0 : t ≠ 0) :
    ∃ p l r, plan.Cut p l r ∧ (t = l ∨ t = r) := by
  have hn := Array.getElem?_eq_getElem ht
  cases hp : plan.nodes[t].parent with
  | none => exact absurd (hF.kin.orphan t _ hn hp) h0
  | some p =>
    obtain ⟨_, m, l, r, hm, hc, htlr⟩ := hF.kin.child t p _ hn hp
    have hlong := hF.kin.long p m _ hm hc
    obtain ⟨l', nl, r', nr, H⟩ := hF.exists_halves hm hlong
    obtain ⟨rfl, rfl⟩ := Prod.mk.inj (Option.some.inj (hc.symm.trans H.children))
    exact ⟨p, l, r, ⟨m, nl, nr, H⟩, htlr⟩

/-! ## Descendants -/

/-- The node is `p`, or below it. -/
inductive Under (plan : Plan) (p : Nat) : Nat → Prop
  | refl : Under plan p p
  | child {q l r t : Nat} : Under plan p q → plan.Cut q l r → t = l ∨ t = r → Under plan p t

namespace Under

theorem span_inside (h : plan.Under p t) : (plan.span t).Inside (plan.span p) := by
  induction h with
  | refl => exact .refl _
  | child _ hcut ht ih =>
    rcases ht with rfl | rfl
    · rw [hcut.span_left]
      exact (Span.lower_inside _).trans ih
    · rw [hcut.span_right]
      exact (Span.upper_inside _).trans ih

theorem le (h : plan.Under p t) (hF : plan.IsFamily) : p ≤ t := by
  induction h with
  | refl => exact Nat.le_refl _
  | child _ hcut ht ih => exact Nat.le_trans ih (Nat.le_of_lt (hcut.lt_child hF ht))

/-- Nothing is below a leaf. -/
theorem eq_of_leaf (h : plan.Under p t) (hleaf : plan.IsLeaf p) : t = p := by
  induction h with
  | refl => rfl
  | child _ hcut _ ih => exact absurd (ih ▸ hleaf) hcut.not_leaf

/-- What is below a node that is cut is below one of its halves. -/
theorem half (h : plan.Under p t) (hcut : plan.Cut p l r) :
    t = p ∨ plan.Under l t ∨ plan.Under r t := by
  induction h with
  | refl => exact .inl rfl
  | child _ hcut' ht ih =>
    rcases ih with rfl | hl | hr
    · obtain ⟨rfl, rfl⟩ := hcut.unique hcut'
      rcases ht with rfl | rfl
      · exact .inr (.inl .refl)
      · exact .inr (.inr .refl)
    · exact .inr (.inl (hl.child hcut' ht))
    · exact .inr (.inr (hr.child hcut' ht))

end Under

/-- Of two nodes that share a position, the later one is below the other. -/
theorem IsFamily.under_of_overlap (hF : plan.IsFamily) {t u i : Nat} (hu : u < plan.nodes.size)
    (hle : t ≤ u) (hti : (plan.span t).start ≤ i ∧ i < (plan.span t).stop)
    (hui : (plan.span u).start ≤ i ∧ i < (plan.span u).stop) : plan.Under t u := by
  induction u using Nat.strongRecOn generalizing t with
  | ind u ih =>
    by_cases heq : t = u
    · exact heq ▸ .refl
    obtain ⟨p, l, r, hcut, hulr⟩ := hF.exists_parent hu (by omega)
    have hpu := hcut.lt_child hF hulr
    have hinside := (Under.refl.child hcut hulr).span_inside
    have hpi : (plan.span p).start ≤ i ∧ i < (plan.span p).stop :=
      ⟨Nat.le_trans hinside.1 hui.1, Nat.lt_of_lt_of_le hui.2 hinside.2⟩
    by_cases htp : t ≤ p
    · exact (ih p hpu hcut.lt_size htp hti hpi).child hcut hulr
    -- the node is below the parent of the later one, so below one of the halves: below the other
    -- half it shares no position with this one, and below this one it does not come before it
    exfalso
    have hunder := ih t (by omega) (by omega) (Nat.le_of_not_le htp) hpi hti
    have hmeet : (plan.span l).stop = (plan.span r).start := by
      rw [hcut.span_left, hcut.span_right, Span.stop_lower]
    have hside : ∀ v, plan.Under v t → v = u ∨
        ¬ (((plan.span v).start ≤ i) ∧ i < (plan.span v).stop) → False := by
      intro v hv hor
      rcases hor with rfl | hout
      · exact absurd (hv.le hF) (by omega)
      · exact hout ⟨Nat.le_trans hv.span_inside.1 hti.1,
          Nat.lt_of_lt_of_le hti.2 hv.span_inside.2⟩
    rcases hunder.half hcut with rfl | hl | hr
    · exact htp (Nat.le_refl _)
    · refine hside l hl (hulr.imp Eq.symm ?_)
      rintro rfl
      omega
    · refine hside r hr (hulr.symm.imp Eq.symm ?_)
      rintro rfl
      omega

/-- Leaves do not share positions. -/
theorem IsFamily.leaf_disjoint (hF : plan.IsFamily) {t u : Nat} (ht : t < plan.nodes.size)
    (hu : u < plan.nodes.size) (htl : plan.IsLeaf t) (hul : plan.IsLeaf u) (hne : t ≠ u) :
    (plan.span t).stop ≤ (plan.span u).start ∨ (plan.span u).stop ≤ (plan.span t).start := by
  refine Decidable.byContradiction fun hover => ?_
  have htpos := hF.len_pos ht
  have hupos := hF.len_pos hu
  -- the later of the two starts lies in both
  have hti : (plan.span t).start ≤ max (plan.span t).start (plan.span u).start ∧
      max (plan.span t).start (plan.span u).start < (plan.span t).stop := by
    simp only [Span.stop] at hover ⊢
    omega
  have hui : (plan.span u).start ≤ max (plan.span t).start (plan.span u).start ∧
      max (plan.span t).start (plan.span u).start < (plan.span u).stop := by
    simp only [Span.stop] at hover ⊢
    omega
  rcases Nat.le_total t u with hle | hle
  · exact hne ((hF.under_of_overlap hu hle hti hui).eq_of_leaf htl).symm
  · exact hne ((hF.under_of_overlap ht hle hui hti).eq_of_leaf hul)

end Plan

end ForkJoin.Scan

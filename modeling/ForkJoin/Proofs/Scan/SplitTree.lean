import ForkJoin.Scan.Layout

/-!
# The layout is a split tree

The nodes of a layout are found in the order in which they are appended, and each is looked at
once. While the layout is grown up to index `i`, the nodes before `i` have what they are to have:
a node longer than the threshold has its two halves as children, and they know their parent. The
nodes from `i` on are still to be looked at. `GrownTo` is this invariant, `grownTo_grow` says that
it holds to the end, and `size_grow` that there are as many nodes as the recursion on the length
has.
-/
namespace ForkJoin.Scan

namespace Layout

variable {threshold len : Nat}

/-- The number of nodes of the split tree of so many elements. -/
def count (threshold : Nat) (ht : 0 < threshold) (len : Nat) : Nat :=
  if threshold < len then
    1 + count threshold ht (len / 2) + count threshold ht (len - len / 2)
  else 1
termination_by len

theorem count_pos (ht : 0 < threshold) (len : Nat) : 0 < count threshold ht len := by
  rw [count]
  split <;> omega

theorem count_of_le (ht : 0 < threshold) (h : len ≤ threshold) : count threshold ht len = 1 := by
  rw [count, if_neg (by omega)]

theorem count_of_lt (ht : 0 < threshold) (h : threshold < len) : count threshold ht len =
    1 + count threshold ht (len / 2) + count threshold ht (len - len / 2) := by
  rw [count, if_pos h]

/-! ## Growing -/

/-- At index `c` is a node with this span, whose parent is `t`. -/
def HasChild (nodes : Layout) (t : Nat) (span : Span) (c : Nat) : Prop :=
  ∃ n : Node, nodes[c]? = some n ∧ n.span = span ∧ n.parent = some t

/-- The nodes before index `i` have their children. -/
structure GrownTo (threshold len : Nat) (nodes : Layout) (i : Nat) : Prop where
  root : ∃ n : Node, nodes[0]? = some n ∧ n.span = ⟨0, len⟩ ∧ n.parent = none
  nonempty : ∀ (t : Nat) (n : Node), nodes[t]? = some n → 0 < n.span.len
  bounded : ∀ (t : Nat) (n : Node), nodes[t]? = some n → n.span.stop ≤ len
  halves : ∀ (t : Nat) (n : Node), nodes[t]? = some n → t < i → threshold < n.span.len → ∃ l r,
    n.children = some (l, r) ∧ nodes.HasChild t n.span.lower l ∧ nodes.HasChild t n.span.upper r

theorem getElem?_split (nodes : Layout) {i : Nat} (hi : i < nodes.size) (t : Nat) :
    (nodes.split i nodes[i])[t]? =
      if t = i then some { nodes[i] with children := some (nodes.size, nodes.size + 1) }
      else if t = nodes.size then some { span := nodes[i].span.lower, parent := some i }
      else if t = nodes.size + 1 then some { span := nodes[i].span.upper, parent := some i }
      else nodes[t]? := by
  simp only [split, Array.getElem?_push, Array.size_push, Array.size_setIfInBounds,
    Array.getElem?_setIfInBounds]
  grind

/-- A split gives the node its children, the two nodes that it appends. -/
theorem getElem?_split_self {nodes : Layout} {i : Nat} (hi : i < nodes.size) :
    (nodes.split i nodes[i])[i]? =
      some { nodes[i] with children := some (nodes.size, nodes.size + 1) } := by
  rw [getElem?_split nodes hi, if_pos rfl]

/-- A split leaves all other nodes as they are. -/
theorem getElem?_split_of_ne {nodes : Layout} {i t : Nat} {n : Node} (hi : i < nodes.size)
    (hti : t ≠ i) (hn : nodes[t]? = some n) : (nodes.split i nodes[i])[t]? = some n := by
  have ht : t < nodes.size := (Array.getElem?_eq_some_iff.1 hn).1
  rw [getElem?_split nodes hi, if_neg hti, if_neg (by omega), if_neg (by omega), hn]

/-- A node after a split is the one that got children, one of these, or an old one. -/
theorem split_cases {nodes : Layout} {i t : Nat} {n : Node} (hi : i < nodes.size)
    (hn : (nodes.split i nodes[i])[t]? = some n) :
    t = i ∧ n = { nodes[i] with children := some (nodes.size, nodes.size + 1) } ∨
      t = nodes.size ∧ n = { span := nodes[i].span.lower, parent := some i } ∨
      t = nodes.size + 1 ∧ n = { span := nodes[i].span.upper, parent := some i } ∨
      t ≠ i ∧ nodes[t]? = some n := by
  rw [getElem?_split nodes hi] at hn
  split at hn
  · exact .inl ⟨by assumption, (Option.some.inj hn).symm⟩
  · split at hn
    · exact .inr (.inl ⟨by assumption, (Option.some.inj hn).symm⟩)
    · split at hn
      · exact .inr (.inr (.inl ⟨by assumption, (Option.some.inj hn).symm⟩))
      · exact .inr (.inr (.inr ⟨by assumption, hn⟩))

/-- What is known of a node by its children only changes where it is split. -/
theorem HasChild.split {nodes : Layout} {i t c : Nat} {span : Span} (hi : i < nodes.size)
    (h : nodes.HasChild t span c) : (nodes.split i nodes[i]).HasChild t span c := by
  obtain ⟨n, hn, hspan, hparent⟩ := h
  by_cases hci : c = i
  · subst hci
    rw [Array.getElem?_eq_getElem hi, Option.some.injEq] at hn
    subst hn
    exact ⟨_, getElem?_split_self hi, hspan, hparent⟩
  · exact ⟨n, getElem?_split_of_ne hi hci hn, hspan, hparent⟩

/-- The next node is short enough. -/
theorem GrownTo.skip {nodes : Layout} {i : Nat} (h : GrownTo threshold len nodes i)
    (hi : i < nodes.size) (hle : nodes[i].span.len ≤ threshold) :
    GrownTo threshold len nodes (i + 1) := by
  refine ⟨h.root, h.nonempty, h.bounded, fun t n hn hti hlt => ?_⟩
  rcases Nat.lt_or_eq_of_le (Nat.le_of_lt_succ hti) with hti | rfl
  · exact h.halves t n hn hti hlt
  · rw [Array.getElem?_eq_getElem hi, Option.some.injEq] at hn
    subst hn
    omega

/-- The span of a node after a split is that of an old one, or one of the halves. -/
theorem span_of_split {nodes : Layout} {i t : Nat} {n : Node} (hi : i < nodes.size)
    (hn : (nodes.split i nodes[i])[t]? = some n) :
    (∃ m : Node, nodes[t]? = some m ∧ n.span = m.span) ∨
      n.span = nodes[i].span.lower ∨ n.span = nodes[i].span.upper := by
  rcases split_cases hi hn with ⟨rfl, rfl⟩ | ⟨_, rfl⟩ | ⟨_, rfl⟩ | ⟨_, hn⟩
  · exact .inl ⟨_, Array.getElem?_eq_getElem hi, rfl⟩
  · exact .inr (.inl rfl)
  · exact .inr (.inr rfl)
  · exact .inl ⟨n, hn, rfl⟩

/-- The node that is split has its halves as children. -/
theorem hasChild_split {nodes : Layout} {i : Nat} (hi : i < nodes.size) :
    (nodes.split i nodes[i]).HasChild i nodes[i].span.lower nodes.size ∧
      (nodes.split i nodes[i]).HasChild i nodes[i].span.upper (nodes.size + 1) := by
  refine ⟨⟨{ span := nodes[i].span.lower, parent := some i }, ?_, rfl, rfl⟩,
    ⟨{ span := nodes[i].span.upper, parent := some i }, ?_, rfl, rfl⟩⟩
  · rw [getElem?_split nodes hi, if_neg (by omega), if_pos rfl]
  · rw [getElem?_split nodes hi, if_neg (by omega), if_neg (by omega), if_pos rfl]

/-- The next node is split. -/
theorem GrownTo.split {nodes : Layout} {i : Nat} (ht : 0 < threshold)
    (h : GrownTo threshold len nodes i) (hi : i < nodes.size)
    (hlt : threshold < nodes[i].span.len) :
    GrownTo threshold len (nodes.split i nodes[i]) (i + 1) := by
  have hself : nodes[i]? = some nodes[i] := Array.getElem?_eq_getElem hi
  have hstop := h.bounded i _ hself
  constructor
  case root =>
    obtain ⟨n, hn, hspan, hparent⟩ := h.root
    by_cases h0i : 0 = i
    · subst h0i
      rw [hself, Option.some.injEq] at hn
      subst hn
      exact ⟨_, getElem?_split_self hi, hspan, hparent⟩
    · exact ⟨n, getElem?_split_of_ne hi h0i hn, hspan, hparent⟩
  case nonempty =>
    intro t n hn
    rcases span_of_split hi hn with ⟨m, hm, hspan⟩ | hspan | hspan
    · rw [hspan]; exact h.nonempty t m hm
    · rw [hspan]; simp only [Span.lower]; omega
    · rw [hspan]; simp only [Span.upper]; omega
  case bounded =>
    intro t n hn
    rcases span_of_split hi hn with ⟨m, hm, hspan⟩ | hspan | hspan
    · rw [hspan]; exact h.bounded t m hm
    · rw [hspan]; simp only [Span.lower, Span.stop] at *; omega
    · rw [hspan, Span.stop_upper]; exact hstop
  case halves =>
    intro t n hn hti hlt'
    rcases split_cases hi hn with ⟨rfl, rfl⟩ | ⟨rfl, _⟩ | ⟨rfl, _⟩ | ⟨hne, hn⟩
    · exact ⟨nodes.size, nodes.size + 1, rfl, hasChild_split hi⟩
    · omega
    · omega
    · obtain ⟨l, r, hc, hl, hr⟩ := h.halves t n hn (by omega) hlt'
      exact ⟨l, r, hc, hl.split hi, hr.split hi⟩

/-- Past the last node there is nothing to be looked at. -/
theorem GrownTo.of_size_le {nodes : Layout} {i j : Nat} (h : GrownTo threshold len nodes j)
    (hj : nodes.size ≤ j) : GrownTo threshold len nodes i := by
  refine ⟨h.root, h.nonempty, h.bounded, fun t n hn _ => ?_⟩
  have hsize := (Array.getElem?_eq_some_iff.1 hn).1
  exact h.halves t n hn (by omega)

theorem GrownTo.growFrom (ht : 0 < threshold) {nodes : Layout} {i : Nat}
    (h : GrownTo threshold len nodes i) :
    GrownTo threshold len (growFrom threshold ht nodes i) (growFrom threshold ht nodes i).size := by
  fun_induction Layout.growFrom threshold ht nodes i with
  | case1 nodes i hi hlt ih => exact ih (h.split ht hi hlt)
  | case2 nodes i hi hle ih => exact ih (h.skip hi (Nat.le_of_not_lt hle))
  | case3 nodes i hi => exact h.of_size_le (Nat.le_of_not_lt hi)

theorem GrownTo.start (hlen : 0 < len) :
    GrownTo threshold len #[{ span := ⟨0, len⟩ }] 0 := by
  have only : ∀ (t : Nat) (n : Node), (#[{ span := ⟨0, len⟩ }] : Layout)[t]? = some n →
      n = { span := ⟨0, len⟩ } := by
    intro t n hn
    obtain ⟨ht, rfl⟩ := Array.getElem?_eq_some_iff.1 hn
    have : t = 0 := by simpa using ht
    subst this
    rfl
  refine ⟨⟨_, rfl, rfl, rfl⟩, fun t n hn => ?_, fun t n hn => ?_, fun t n _ h => by omega⟩
  · rw [only t n hn]; exact hlen
  · rw [only t n hn]; simp [Span.stop]

/-- **The layout of a scan is a split tree.** -/
theorem grownTo_grow (ht : 0 < threshold) (hlen : 0 < len) :
    GrownTo threshold len (grow threshold ht len) (grow threshold ht len).size :=
  (GrownTo.start hlen).growFrom ht

/-! ## The number of nodes -/

/-- The number of nodes still to be appended below the nodes from index `i` on. -/
def missing (threshold : Nat) (ht : 0 < threshold) (nodes : Layout) (i : Nat) : Nat :=
  nodes.totalFrom (fun n => count threshold ht n.span.len - 1) i

theorem size_growFrom (ht : 0 < threshold) (nodes : Layout) (i : Nat) :
    (growFrom threshold ht nodes i).size = nodes.size + nodes.missing threshold ht i := by
  fun_induction Layout.growFrom threshold ht nodes i with
  | case1 nodes i hi hlt ih =>
    have hcount := count_of_lt ht hlt
    have hl := count_pos ht (nodes[i].span.len / 2)
    have hr := count_pos ht (nodes[i].span.len - nodes[i].span.len / 2)
    rw [ih, missing, missing, totalFrom_split _ _ hi, totalFrom_eq _ _ hi]
    simp only [split, Array.size_push, Array.size_setIfInBounds, Span.lower, Span.upper]
    omega
  | case2 nodes i hi hle ih =>
    rw [ih, missing, missing, totalFrom_eq _ _ hi, count_of_le ht (Nat.le_of_not_lt hle)]
    omega
  | case3 nodes i hi => rw [missing, totalFrom_of_size_le _ _ (Nat.le_of_not_lt hi), Nat.add_zero]

theorem size_grow (ht : 0 < threshold) (len : Nat) :
    (grow threshold ht len).size = count threshold ht len := by
  have := count_pos ht len
  rw [grow, size_growFrom, missing, totalFrom_eq _ _ (by simp), totalFrom_of_size_le _ _ (by simp)]
  simp only [List.size_toArray, List.length_cons, List.length_nil, List.getElem_toArray,
    List.getElem_cons_zero]
  omega

end Layout

end ForkJoin.Scan

import ForkJoin.Span

/-!
# The split tree of a scan

A scan cuts its window in halves until the pieces are no longer than a threshold. The tree is laid
out flat, breadth first: nodes are known by their index, the root is node 0, and the children of a
node stand at two consecutive indexes after it. It is grown in one pass over the nodes, in which a
node that is too long appends its halves. The pass ends because the halves of a node weigh less
together than the node: `weight_halves`.
-/
namespace ForkJoin.Scan

/-- A node of the split tree: its span, and the indexes of its parent and its children
(`NodeLayout`). -/
structure Node where
  span : Span
  parent : Option Nat := none
  children : Option (Nat × Nat) := none
  deriving DecidableEq

/-- The number of nodes that can come of this one, itself included. -/
def Node.weight (n : Node) : Nat := max 1 (2 * n.span.len - 1)

theorem Node.weight_pos (n : Node) : 0 < n.weight := by
  unfold weight; omega

theorem Node.weight_halves {threshold : Nat} (ht : 0 < threshold) {n : Node}
    (h : threshold < n.span.len) :
    Node.weight { span := n.span.lower } + Node.weight { span := n.span.upper } < n.weight := by
  simp only [Node.weight, Span.lower, Span.upper]
  omega

/-- The sum of a measure over some nodes. -/
def Node.total (f : Node → Nat) : List Node → Nat
  | [] => 0
  | n :: ns => f n + total f ns

theorem Node.total_append (f : Node → Nat) (ns ms : List Node) :
    total f (ns ++ ms) = total f ns + total f ms := by
  induction ns with
  | nil => rw [List.nil_append, total, Nat.zero_add]
  | cons n ns ih => rw [List.cons_append, total, total, ih, Nat.add_assoc]

/-- The nodes of a split tree by their index. -/
abbrev Layout := Array Node

namespace Layout

/-- The sum of a measure over the nodes from index `i` on. -/
def totalFrom (f : Node → Nat) (nodes : Layout) (i : Nat) : Nat :=
  Node.total f (nodes.toList.drop i)

/-- Appends the halves of the node `n` at index `i`. -/
def split (nodes : Layout) (i : Nat) (n : Node) : Layout :=
  ((nodes.setIfInBounds i { n with children := some (nodes.size, nodes.size + 1) }).push
    { span := n.span.lower, parent := some i }).push { span := n.span.upper, parent := some i }

section

variable (f : Node → Nat) (nodes : Layout) {i : Nat}

theorem totalFrom_of_size_le (h : nodes.size ≤ i) : nodes.totalFrom f i = 0 := by
  rw [totalFrom, List.drop_eq_nil_of_le (by rwa [Array.length_toList]), Node.total]

theorem totalFrom_eq (h : i < nodes.size) :
    nodes.totalFrom f i = f nodes[i] + nodes.totalFrom f (i + 1) := by
  unfold totalFrom
  rw [List.drop_eq_getElem_cons (by rw [Array.length_toList]; exact h), Node.total,
    Array.getElem_toList]

/-- The halves of a node are counted after it. -/
theorem totalFrom_split (h : i < nodes.size) (n : Node) : (nodes.split i n).totalFrom f (i + 1) =
    nodes.totalFrom f (i + 1) + (f { span := n.span.lower, parent := some i } +
      f { span := n.span.upper, parent := some i }) := by
  have hl : i + 1 ≤ nodes.toList.length := by rw [Array.length_toList]; exact h
  simp only [totalFrom, split, Array.toList_push, Array.toList_setIfInBounds, List.append_assoc]
  rw [List.drop_append_of_le_length (by rw [List.length_set]; exact hl),
    List.drop_set_of_lt (Nat.lt_succ_self i), Node.total_append]
  rfl

end

/-- The weight of the nodes from index `i` on. -/
def weightFrom (nodes : Layout) (i : Nat) : Nat := nodes.totalFrom Node.weight i

/-- Splits the nodes from index `i` on that are longer than the threshold, and their halves in
turn: the worklist of `setup`. -/
def growFrom (threshold : Nat) (ht : 0 < threshold) (nodes : Layout) (i : Nat) : Layout :=
  if hi : i < nodes.size then
    if threshold < nodes[i].span.len then
      growFrom threshold ht (nodes.split i nodes[i]) (i + 1)
    else growFrom threshold ht nodes (i + 1)
  else nodes
termination_by nodes.weightFrom i
decreasing_by
  · rename_i h
    have := Node.weight_halves ht h
    rw [weightFrom, weightFrom, totalFrom_split _ _ hi, totalFrom_eq _ _ hi]
    exact Nat.lt_of_le_of_lt (Nat.le_of_eq (Nat.add_comm _ _)) (Nat.add_lt_add_right this _)
  · have := nodes[i].weight_pos
    rw [weightFrom, weightFrom, totalFrom_eq _ _ hi]
    omega

/-- The split tree of `len` elements. -/
def grow (threshold : Nat) (ht : 0 < threshold) (len : Nat) : Layout :=
  growFrom threshold ht #[{ span := ⟨0, len⟩ }] 0

end Layout

/-- All that the visits of one scan know beforehand (`Cumulate`). -/
structure Plan where
  threshold : Nat
  /-- The number of elements. -/
  len : Nat
  nodes : Layout

/-- The plan for `len` elements. -/
def Plan.ofLength (threshold : Nat) (ht : 0 < threshold) (len : Nat) : Plan where
  threshold := threshold
  len := len
  nodes := Layout.grow threshold ht len

end ForkJoin.Scan

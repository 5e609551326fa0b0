import ForkJoin.Proofs.Scan.Frame
import ForkJoin.Proofs.Scan.SplitTree

/-!
# The two halves of a node

`Plan.Halves` names what a visit finds at a node that is cut: the node, its two children, and how
the three spans lie. Everything that tells the children apart from each other and from the node
follows from their spans.
-/
namespace ForkJoin.Scan

open Store

variable {α : Type}

namespace Plan

variable {plan : Plan}

/-- The node `t` is cut, into `l` and `r`. -/
structure Halves (plan : Plan) (t : Nat) (n : Node) (l : Nat) (nl : Node) (r : Nat) (nr : Node) :
    Prop where
  node : plan.nodes[t]? = some n
  lt : plan.threshold < n.span.len
  children : n.children = some (l, r)
  left : plan.nodes[l]? = some nl
  right : plan.nodes[r]? = some nr
  left_span : nl.span = n.span.lower
  right_span : nr.span = n.span.upper
  left_parent : nl.parent = some t
  right_parent : nr.parent = some t

/-- The nodes of the plan are a split tree of its elements. -/
structure IsTree (plan : Plan) : Prop where
  pos : 0 < plan.threshold
  grown : plan.nodes.GrownTo plan.threshold plan.len plan.nodes.size

theorem IsTree.exists_halves (hT : plan.IsTree) {t : Nat} {n : Node}
    (hn : plan.nodes[t]? = some n) (hlt : plan.threshold < n.span.len) :
    ∃ l nl r nr, plan.Halves t n l nl r nr := by
  obtain ⟨l, r, hc, ⟨nl, hl, hls, hlp⟩, ⟨nr, hr, hrs, hrp⟩⟩ :=
    hT.grown.halves t n hn (Array.getElem?_eq_some_iff.1 hn).1 hlt
  exact ⟨l, nl, r, nr, hn, hlt, hc, hl, hr, hls, hrs, hlp, hrp⟩

namespace Halves

variable {t l r : Nat} {n nl nr : Node}

theorem left_inside (H : plan.Halves t n l nl r nr) : nl.span.Inside n.span :=
  H.left_span ▸ n.span.lower_inside

theorem right_inside (H : plan.Halves t n l nl r nr) : nr.span.Inside n.span :=
  H.right_span ▸ n.span.upper_inside

theorem len_left (H : plan.Halves t n l nl r nr) (hT : plan.IsTree) :
    0 < nl.span.len ∧ nl.span.len < n.span.len := by
  have := H.lt
  have := hT.pos
  rw [H.left_span, Span.lower]
  constructor <;> simp only <;> omega

theorem len_right (H : plan.Halves t n l nl r nr) (hT : plan.IsTree) :
    0 < nr.span.len ∧ nr.span.len < n.span.len := by
  have := H.lt
  have := hT.pos
  rw [H.right_span, Span.upper]
  constructor <;> simp only <;> omega

theorem not_inside_left (H : plan.Halves t n l nl r nr) (hT : plan.IsTree) :
    ¬ n.span.Inside nl.span := Span.not_inside_of_len (H.len_left hT).2

theorem not_inside_right (H : plan.Halves t n l nl r nr) (hT : plan.IsTree) :
    ¬ n.span.Inside nr.span := Span.not_inside_of_len (H.len_right hT).2

theorem right_not_inside_left (H : plan.Halves t n l nl r nr) (hT : plan.IsTree) :
    ¬ nr.span.Inside nl.span := by
  rw [H.right_span, H.left_span]
  exact Span.upper_not_inside_lower (H.right_span ▸ (H.len_right hT).1)

theorem left_not_inside_right (H : plan.Halves t n l nl r nr) (hT : plan.IsTree) :
    ¬ nl.span.Inside nr.span := by
  rw [H.right_span, H.left_span]
  exact Span.lower_not_inside_upper (H.left_span ▸ (H.len_left hT).1)

/-- A node below the left child is not below the right one. -/
theorem not_left_of_right (H : plan.Halves t n l nl r nr) {span : Span} (hspan : 0 < span.len)
    (h : span.Inside nr.span) : ¬ span.Inside nl.span := by
  simp only [H.left_span, H.right_span, Span.Inside, Span.lower, Span.upper, Span.stop] at *
  omega

theorem not_right_of_left (H : plan.Halves t n l nl r nr) {span : Span} (hspan : 0 < span.len)
    (h : span.Inside nl.span) : ¬ span.Inside nr.span :=
  fun h' => H.not_left_of_right hspan h' h

theorem ne_of_left (H : plan.Halves t n l nl r nr) (hT : plan.IsTree) {u : Nat} {m : Node}
    (hm : plan.nodes[u]? = some m) (h : m.span.Inside nl.span) : u ≠ t :=
  ne_of_inside hm h H.node (H.not_inside_left hT)

theorem ne_of_right (H : plan.Halves t n l nl r nr) (hT : plan.IsTree) {u : Nat} {m : Node}
    (hm : plan.nodes[u]? = some m) (h : m.span.Inside nr.span) : u ≠ t :=
  ne_of_inside hm h H.node (H.not_inside_right hT)

/-- A node below the left child is not the right one, and the other way round. -/
theorem ne_right_of_left (H : plan.Halves t n l nl r nr) (hT : plan.IsTree) {u : Nat} {m : Node}
    (hm : plan.nodes[u]? = some m) (h : m.span.Inside nl.span) : u ≠ r :=
  ne_of_inside hm h H.right (H.right_not_inside_left hT)

theorem ne_left_of_right (H : plan.Halves t n l nl r nr) (hT : plan.IsTree) {u : Nat} {m : Node}
    (hm : plan.nodes[u]? = some m) (h : m.span.Inside nr.span) : u ≠ l :=
  ne_of_inside hm h H.left (H.left_not_inside_right hT)

theorem right_ne_left (H : plan.Halves t n l nl r nr) (hT : plan.IsTree) : r ≠ l :=
  H.ne_left_of_right hT H.right (Span.Inside.refl _)

theorem count (H : plan.Halves t n l nl r nr) (ht : 0 < plan.threshold) :
    Layout.count plan.threshold ht n.span.len = 1 +
      Layout.count plan.threshold ht nl.span.len + Layout.count plan.threshold ht nr.span.len := by
  rw [Layout.count_of_lt ht H.lt, H.left_span, H.right_span]
  rfl

/-- The left half never ends with the window. -/
theorem left_not_last (H : plan.Halves t n l nl r nr) (hT : plan.IsTree) :
    plan.isLast nl.span = false := by
  have hb := hT.grown.bounded t n H.node
  have hr := (H.len_right hT).1
  rw [H.right_span] at hr
  simp only [isLast, H.left_span, beq_eq_false_iff_ne, Span.lower, Span.upper, Span.stop] at *
  omega

theorem right_last (H : plan.Halves t n l nl r nr) : plan.isLast nr.span = plan.isLast n.span := by
  simp only [isLast, H.right_span, Span.stop_upper]

theorem start_right_pos (H : plan.Halves t n l nl r nr) (hT : plan.IsTree) : 0 < nr.span.start := by
  have := (H.len_left hT).1
  rw [H.left_span] at this
  simp only [H.right_span, Span.lower, Span.upper] at *
  omega

/-- The right half starts where the left one stops. -/
theorem meet (H : plan.Halves t n l nl r nr) : nl.span.stop = nr.span.start := by
  rw [H.left_span, H.right_span, Span.stop_lower]

theorem start_left (H : plan.Halves t n l nl r nr) : nl.span.start = n.span.start := by
  rw [H.left_span, Span.start_lower]

/-! ### Their elements -/

variable {s : Store α}

theorem segment_left (H : plan.Halves t n l nl r nr) (hT : plan.IsTree) (hs : s.Fits plan) :
    s.segment nl.span = (s.segment n.span).take ((s.segment n.span).length / 2) := by
  rw [H.left_span]
  exact segment_lower (hs.cells ▸ hT.grown.bounded t n H.node)

theorem segment_right (H : plan.Halves t n l nl r nr) (hT : plan.IsTree) (hs : s.Fits plan) :
    s.segment nr.span = (s.segment n.span).drop ((s.segment n.span).length / 2) := by
  rw [H.right_span]
  exact segment_upper (hs.cells ▸ hT.grown.bounded t n H.node)

theorem segment_append (H : plan.Halves t n l nl r nr) (s : Store α) :
    s.segment n.span = s.segment nl.span ++ s.segment nr.span := by
  rw [H.left_span, H.right_span, segment_halves]

end Halves

theorem IsTree.read? (hT : plan.IsTree) {s : Store α} (hs : s.Fits plan) {t : Nat} {n : Node}
    (hn : plan.nodes[t]? = some n) :
    n.span.read? s.cells = some (s.cells.extract n.span.start n.span.stop) :=
  Span.read?_of_le (hs.cells ▸ hT.grown.bounded t n hn)

theorem IsTree.length_segment (hT : plan.IsTree) {s : Store α} (hs : s.Fits plan) {t : Nat}
    {n : Node} (hn : plan.nodes[t]? = some n) : (s.segment n.span).length = n.span.len :=
  Store.length_segment (hs.cells ▸ hT.grown.bounded t n hn)

end Plan

end ForkJoin.Scan

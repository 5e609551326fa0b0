import ForkJoin.Proofs.Sorting.Duties
import ForkJoin.Proofs.Sorting.Merging

/-!
# The pieces of a merge

Where a merge is cut depends on its runs and on the comparator, and not on the task that makes the
cut or on when it does so. So it is settled from the start which merges are made without a further
cut, and what each of them writes. These are the pieces of the merge: they are short, they lie side
by side in its target, and what they write is what the recursive merge returns.
-/
namespace ForkJoin.Sorting

open Calling

variable {α : Type}

/-- The runs lie within their buffer and the target within the other. -/
structure Merge.Lies (m : Merge) (s : Store α) : Prop where
  left : m.left.stop ≤ (s.buffer m.source).size
  right : m.right.stop ≤ (s.buffer m.source).size
  target : m.target.stop ≤ (s.buffer m.source.other).size

/-- A merge that is made without a further cut, and what it writes. -/
structure Piece (α : Type) where
  merge : Merge
  out : List α

/-- The pieces of a merge of runs of this state, in the order of their targets. -/
inductive Splits (g : Nat) (cmp : α → α → Ordering) (s : Store α) :
    Merge → List (Piece α) → Prop
  /-- Short runs are merged. -/
  | short {m : Merge} {out : List α} {calls : List (α × α)}
      (hshort : max m.left.len m.right.len ≤ g)
      (hout : Returns cmp
        (Sorting.merge (s.segment m.source m.left) (s.segment m.source m.right)) out calls) :
    Splits g cmp s m [⟨m, out⟩]
  /-- Long runs are cut, and what lies before the cut and behind it is merged in its turn. -/
  | cut {m : Merge} {before behind : List (Piece α)} {calls : List (α × α)}
      (c : Cut m.left.len m.right.len) (hc : c.Halves g)
      (hcut : Returns cmp (cut? g (s.segment m.source m.left).toArray
        (s.segment m.source m.right).toArray m.left.len m.right.len) (some c) calls)
      (hbefore : Splits g cmp s (m.head c.left c.right) before)
      (hbehind : Splits g cmp s (m.tail m.left.len m.right.len c.left c.right) behind) :
    Splits g cmp s m (before ++ behind)

variable {g lh rh i : Nat} {cmp : α → α → Ordering} {s : Store α} {m : Merge} {v w : α}
  {pieces : List (Piece α)}

/-! ## Parts of a merge -/

namespace Merge.Lies

theorem head (h : m.Lies s) (hl : lh ≤ m.left.len) (hr : rh ≤ m.right.len) :
    (m.head lh rh).Lies s := by
  obtain ⟨h₁, h₂, h₃⟩ := h
  simp only [Merge.target, Span.stop] at h₁ h₂ h₃
  constructor <;> simp only [Merge.head, Merge.target, Span.stop] <;> omega

theorem tail (h : m.Lies s) (hl : lh ≤ m.left.len) (hr : rh ≤ m.right.len) :
    (m.tail m.left.len m.right.len lh rh).Lies s := by
  obtain ⟨h₁, h₂, h₃⟩ := h
  simp only [Merge.target, Span.stop] at h₁ h₂ h₃
  constructor <;> simp only [Merge.tail, Merge.target, Span.stop] <;> omega

/-- **Every merge has its pieces**, whatever the comparator. -/
theorem exists_splits (h : m.Lies s) (hg : 0 < g) (cmp : α → α → Ordering) :
    ∃ pieces, Splits g cmp s m pieces := by
  induction hn : m.left.len + m.right.len using Nat.strongRecOn generalizing m with
  | ind n ih =>
    subst hn
    by_cases hshort : max m.left.len m.right.len ≤ g
    · obtain ⟨out, calls, hout, -⟩ := (merge_perm (s.segment m.source m.left)
        (s.segment m.source m.right)).returns (f := cmp) fun _ _ _ => trivial
      exact ⟨_, .short hshort hout⟩
    · have hleft : m.left.len ≤ (s.segment m.source m.left).toArray.size :=
        (Store.length_segment h.left).ge
      have hright : m.right.len ≤ (s.segment m.source m.right).toArray.size :=
        (Store.length_segment h.right).ge
      obtain ⟨_, calls, hcut, c, rfl, hc⟩ := (cut?_long hleft hright
        (Nat.lt_of_not_le hshort)).returns (f := cmp) fun _ _ _ => trivial
      -- neither side of the cut is the whole
      have hpos := hc.pos hg
      have hshrinks := c.shrinks
      have hl := c.left_le
      have hr := c.right_le
      obtain ⟨before, hbefore⟩ := ih _ hshrinks (h.head hl hr) rfl
      obtain ⟨behind, hbehind⟩ := ih (m.left.len - c.left + (m.right.len - c.right)) (by omega)
        (h.tail hl hr) rfl
      exact ⟨before ++ behind, .cut c hc hcut hbefore hbehind⟩

end Merge.Lies

/-! ## What the pieces are -/

theorem Lays.unique {start : Nat} {xs : List α} (h : Lays start xs i v) (h' : Lays start xs i w) :
    v = w :=
  Option.some.inj (h.2.symm.trans h'.2)

/-- What each piece of a merge is like. -/
structure Piece.Of (g : Nat) (m : Merge) (s : Store α) (p : Piece α) : Prop where
  short : max p.merge.left.len p.merge.right.len ≤ g
  source : p.merge.source = m.source
  lies : p.merge.Lies s
  length_out : p.out.length = p.merge.target.len
  touches : ∀ b i, p.merge.touches b i → m.touches b i

namespace Splits

theorem ne_nil (h : Splits g cmp s m pieces) : pieces ≠ [] := by
  induction h with
  | short => exact List.cons_ne_nil _ _
  | cut _ _ _ _ _ ih _ => exact List.append_ne_nil_of_left_ne_nil ih _

/-- **Each piece is a short merge** within the whole one. -/
theorem of_mem (h : Splits g cmp s m pieces) (hm : m.Lies s) : ∀ p ∈ pieces, p.Of g m s := by
  induction h with
  | @short m out calls hshort hout =>
    intro p hp
    obtain rfl := List.mem_singleton.1 hp
    refine ⟨hshort, rfl, hm, ?_, fun _ _ h => h⟩
    rw [(returns_of_ensures hout (merge_perm _ _)).length_eq, List.length_append,
      Store.length_segment hm.left, Store.length_segment hm.right]
    rfl
  | @cut m before behind calls c hc hcut _ _ ihbefore ihbehind =>
    have hl := c.left_le
    have hr := c.right_le
    intro p hp
    rcases List.mem_append.1 hp with hp | hp
    · obtain ⟨hshort, hsource, hlies, hlength, htouches⟩ := ihbefore (hm.head hl hr) p hp
      exact ⟨hshort, hsource, hlies, hlength, fun b i hi =>
        Merge.touches_head hl hr b i (htouches b i hi)⟩
    · obtain ⟨hshort, hsource, hlies, hlength, htouches⟩ := ihbehind (hm.tail hl hr) p hp
      exact ⟨hshort, hsource, hlies, hlength, fun b i hi =>
        Merge.touches_tail hl hr b i (htouches b i hi)⟩

/-- Together they write as many elements as there are. -/
theorem length_out (h : Splits g cmp s m pieces) (hm : m.Lies s) :
    (pieces.flatMap Piece.out).length = m.target.len := by
  induction h with
  | @short m out calls hshort hout =>
    rw [List.flatMap_singleton]
    exact ((Splits.short hshort hout).of_mem hm _ (List.mem_singleton_self _)).length_out
  | @cut m before behind calls c hc hcut _ _ ihbefore ihbehind =>
    have hl := c.left_le
    have hr := c.right_le
    rw [List.flatMap_append, List.length_append, ihbefore (hm.head hl hr),
      ihbehind (hm.tail hl hr)]
    simp only [Merge.target, Merge.head, Merge.tail]
    omega

/-- Their number: a cut leaves something on either side. -/
theorem length_le (h : Splits g cmp s m pieces) (hg : 0 < g) :
    pieces.length ≤ max 1 (m.left.len + m.right.len) := by
  induction h with
  | short => exact Nat.le_max_left _ _
  | @cut m before behind calls c hc _ _ _ ihbefore ihbehind =>
    have hpos := hc.pos hg
    have hshrinks := c.shrinks
    have hl := c.left_le
    have hr := c.right_le
    simp only [Merge.head, Merge.tail] at ihbefore ihbehind
    rw [List.length_append]
    omega

/-- **They lie side by side**: a piece has an element for a position exactly if the whole has it
there. -/
theorem lays_iff (h : Splits g cmp s m pieces) (hm : m.Lies s) :
    Lays m.dest (pieces.flatMap Piece.out) i v ↔
      ∃ p ∈ pieces, Lays p.merge.dest p.out i v := by
  induction h with
  | short =>
    simp only [List.flatMap_singleton, List.mem_singleton, exists_eq_left]
  | @cut m before behind calls c hc hcut hbefore _ ihbefore ihbehind =>
    have hl := c.left_le
    have hr := c.right_le
    have hdest : m.dest + (before.flatMap Piece.out).length =
        (m.tail m.left.len m.right.len c.left c.right).dest := by
      rw [hbefore.length_out (hm.head hl hr)]
      exact (Nat.add_assoc _ _ _).symm
    rw [List.flatMap_append, lays_append, hdest, ihbehind (hm.tail hl hr),
      show m.dest = (m.head c.left c.right).dest from rfl, ihbefore (hm.head hl hr)]
    simp only [List.mem_append, or_and_right, exists_or]

/-- **What the pieces write is what the recursive merge returns.** -/
theorem returns (h : Splits g cmp s m pieces) (hm : m.Lies s) (hg : 0 < g) :
    ∃ calls, Returns cmp
      (splitMerge g (s.segment m.source m.left) (s.segment m.source m.right))
      (pieces.flatMap Piece.out) calls := by
  induction h with
  | @short m out calls hshort hout =>
    rw [splitMerge_eq (Store.length_segment hm.left) (Store.length_segment hm.right),
      cut?_short _ _ hshort, Calling.done_bind, List.flatMap_singleton]
    exact ⟨calls, hout⟩
  | @cut m before behind calls c hc hcut _ _ ihbefore ihbehind =>
    have hl := c.left_le
    have hr := c.right_le
    obtain ⟨made, hbefore⟩ := ihbefore (hm.head hl hr)
    obtain ⟨more, hbehind⟩ := ihbehind (hm.tail hl hr)
    rw [splitMerge_eq (Store.length_segment hm.left) (Store.length_segment hm.right)]
    refine ⟨calls ++ (made ++ more), hcut.bind ?_⟩
    simp only [if_pos (hc.pos hg)]
    rw [Store.segment_take hm.left hl, Store.segment_take hm.right hr,
      Store.segment_drop hm.left hl, Store.segment_drop hm.right hr, List.flatMap_append]
    exact hbefore.bind (hbehind.bind_done rfl)

end Splits

end ForkJoin.Sorting

import ForkJoin.Proofs.Sorting.Errands

/-!
# What a merge does for any comparator

Where a comparator contradicts itself a merge does not sort, and a cut may leave nothing of one run
on one side. But the longer run is cut in its middle, so neither side of a cut is short, and what
lies before the cut of either run is written before what lies behind it. From this alone it follows
that a merge with all that it forks comes to its end, in few linear merges for what there is to be
merged, and that it leaves the runs shuffled: `merge_shuffles`.
-/
namespace ForkJoin.Sorting

open Calling

variable {α : Type}

/-! ## Shuffles -/

/-- The elements of two runs, each run in its order. -/
inductive Shuffle : List α → List α → List α → Prop
  | nil : Shuffle [] [] []
  | left {x : α} {xs ys zs : List α} : Shuffle xs ys zs → Shuffle (x :: xs) ys (x :: zs)
  | right {y : α} {xs ys zs : List α} : Shuffle xs ys zs → Shuffle xs (y :: ys) (y :: zs)

namespace Shuffle

theorem nil_left (ys : List α) : Shuffle [] ys ys := by
  induction ys with
  | nil => exact .nil
  | cons y ys ih => exact ih.right

theorem nil_right (xs : List α) : Shuffle xs [] xs := by
  induction xs with
  | nil => exact .nil
  | cons x xs ih => exact ih.left

theorem append {xs ys zs xs' ys' zs' : List α} (h : Shuffle xs ys zs) (h' : Shuffle xs' ys' zs') :
    Shuffle (xs ++ xs') (ys ++ ys') (zs ++ zs') := by
  induction h with
  | nil => exact h'
  | left _ ih => exact ih.left
  | right _ ih => exact ih.right

end Shuffle

/-- A linear merge shuffles its runs behind what was merged before. -/
theorem mergeInto_shuffles (out left right : List α) : (mergeInto out left right).Ensures .any
    fun merged => ∃ zs, Shuffle left right zs ∧ merged = out.reverse ++ zs := by
  fun_induction mergeInto out left right with
  | case1 out right => exact ⟨right, .nil_left right, List.reverseAux_eq⟩
  | case2 out left _ => exact ⟨left, .nil_right left, List.reverseAux_eq⟩
  | case3 out x xs y ys ihr ihl =>
    simp only [ensures_call]
    refine ⟨trivial, fun o _ => ?_⟩
    split
    · refine ihr.mono ?_
      rintro _ ⟨zs, hzs, rfl⟩
      exact ⟨y :: zs, hzs.right, by rw [List.reverse_cons, List.append_assoc]; rfl⟩
    · refine ihl.mono ?_
      rintro _ ⟨zs, hzs, rfl⟩
      exact ⟨x :: zs, hzs.left, by rw [List.reverse_cons, List.append_assoc]; rfl⟩

theorem merge_shuffle (left right : List α) :
    (Sorting.merge left right).Ensures .any (Shuffle left right) := by
  refine (mergeInto_shuffles [] left right).mono ?_
  rintro _ ⟨zs, hzs, rfl⟩
  exact hzs

/-! ## The pieces of a merge -/

variable {g : Nat} {cmp : α → α → Ordering} {s : Store α} {m : Merge} {pieces : List (Piece α)}

/-- On either side of a cut there is half of what was too long. -/
theorem Cut.Halves.half_le {ln rn : Nat} {c : Cut ln rn} (h : c.Halves g) :
    (g + 1) / 2 ≤ c.left + c.right ∧ (g + 1) / 2 ≤ ln - c.left + (rn - c.right) := by
  have hlonger := h.longer
  have hl := c.left_le
  have hr := c.right_le
  rcases h.middle with ⟨hle, hmiddle⟩ | ⟨hlt, hmiddle⟩
  · omega
  · omega

namespace Splits

/-- **What the pieces write is a shuffle of the runs.** -/
theorem shuffle (h : Splits g cmp s m pieces) (hm : m.Lies s) :
    Shuffle (s.segment m.source m.left) (s.segment m.source m.right)
      (pieces.flatMap Piece.out) := by
  induction h with
  | @short m out calls hshort hout =>
    rw [List.flatMap_singleton]
    exact returns_of_ensures hout (merge_shuffle _ _)
  | @cut m before behind calls c hc hcut _ _ ihbefore ihbehind =>
    have hl := c.left_le
    have hr := c.right_le
    have hall := (ihbefore (hm.head hl hr)).append (ihbehind (hm.tail hl hr))
    simp only [Merge.head, Merge.tail] at hall
    rwa [← Store.segment_take hm.left hl, ← Store.segment_take hm.right hr,
      ← Store.segment_drop hm.left hl, ← Store.segment_drop hm.right hr, List.take_append_drop,
      List.take_append_drop, ← List.flatMap_append] at hall

/-- **Each position of the target is a piece's own.** -/
theorem positions (h : Splits g cmp s m pieces) :
    pieces.flatMap (·.merge.target.positions) = m.target.positions := by
  induction h with
  | short => exact List.flatMap_singleton _ _
  | @cut m before behind calls c hc hcut _ _ ihbefore ihbehind =>
    have hl := c.left_le
    have hr := c.right_le
    rw [List.flatMap_append, ihbefore, ihbehind]
    simp only [Span.positions, Merge.target, Merge.head, Merge.tail]
    rw [Nat.add_assoc, List.range'_append_1]
    congr 1
    omega

/-- No piece is small if the merge is not. -/
theorem half_le (h : Splits g cmp s m pieces) (hlen : (g + 1) / 2 ≤ m.target.len) :
    ∀ p ∈ pieces, (g + 1) / 2 ≤ p.merge.target.len := by
  induction h with
  | short =>
    intro p hp
    obtain rfl := List.mem_singleton.1 hp
    exact hlen
  | @cut m before behind calls c hc hcut _ _ ihbefore ihbehind =>
    intro p hp
    rcases List.mem_append.1 hp with hp | hp
    · exact ihbefore hc.half_le.1 p hp
    · exact ihbehind hc.half_le.2 p hp

/-- The pieces are few for the length of the merge. -/
theorem length_mul_le (h : Splits g cmp s m pieces) (hlen : (g + 1) / 2 ≤ m.target.len) :
    pieces.length * ((g + 1) / 2) ≤ m.target.len := by
  induction h with
  | short => rwa [List.length_singleton, Nat.one_mul]
  | @cut m before behind calls c hc hcut _ _ ihbefore ihbehind =>
    have hl := c.left_le
    have hr := c.right_le
    have hbefore := ihbefore hc.half_le.1
    have hbehind := ihbehind hc.half_le.2
    simp only [Merge.target, Merge.head, Merge.tail] at hbefore hbehind ⊢
    rw [List.length_append, Nat.add_mul]
    omega

/-- There are several pieces if a run is too long. -/
theorem one_lt_length_iff (h : Splits g cmp s m pieces) :
    1 < pieces.length ↔ g < max m.left.len m.right.len := by
  cases h with
  | short hshort hout => rw [List.length_singleton]; omega
  | cut c hc hcut hbefore hbehind =>
    have hlonger := hc.longer
    have h₁ := List.length_pos_iff.2 hbefore.ne_nil
    have h₂ := List.length_pos_iff.2 hbehind.ne_nil
    rw [List.length_append]
    omega

end Splits

/-- **A merge shuffles its runs, in pieces that are neither long nor many**, for every comparator,
any granularity and any policy: with all that it forks it comes to its end as soon as one step can
be made for each element; the linear merges it ends in write each position of its target once and
nothing else, and if there are several of them none is small. -/
theorem merge_shuffles {ε : Type} (cmp : α → α → Ordering) (hg : 0 < g) (hm : m.Lies s) {X : Latch}
    (hX : X.Plain s.pending.size) (policy : Policy) {k : Nat}
    (hk : max 1 (m.left.len + m.right.len) ≤ k) :
    ∃ (s' : Store α) (calls : Array (α × α)) (made : List Merge),
      ((Work.steps (Task.run g) policy k [.merge X m]).run s).run
        (fun a b => (.ok (cmp a b) : Except ε Ordering)) = .ok ⟨([], s'), calls⟩ ∧
      Shuffle (s.segment m.source m.left) (s.segment m.source m.right)
        (s'.segment m.source.other m.target) ∧
      (∀ b i, ¬ m.touches b i → (s'.buffer b)[i]? = (s.buffer b)[i]?) ∧
      (merges s'.log.toList).Perm (merges s.log.toList ++ made) ∧
      made.flatMap (·.target.positions) = m.target.positions ∧
      (∀ p ∈ made, p.source = m.source ∧ p.left.len ≤ g ∧ p.right.len ≤ g) ∧
      (1 < made.length ↔ g < max m.left.len m.right.len) ∧
      (1 < made.length → (∀ p ∈ made, (g + 1) / 2 ≤ p.left.len + p.right.len) ∧
        made.length * ((g + 1) / 2) ≤ m.left.len + m.right.len) := by
  obtain ⟨pieces, hpieces⟩ := hm.exists_splits hg cmp
  obtain ⟨s', calls, hrun, hsegment, -, hframe, hmerges⟩ :=
    hpieces.steps hm hX policy ((hpieces.length_le hg).trans hk)
  refine ⟨s', _, pieces.map Piece.merge, hrun.run, hsegment ▸ hpieces.shuffle hm, hframe, hmerges,
    ?_, fun p hp => ?_, ?_, fun hsplit => ?_⟩
  · rw [List.flatMap_map]
    exact hpieces.positions
  · obtain ⟨piece, hpiece, rfl⟩ := List.mem_map.1 hp
    have hof := hpieces.of_mem hm piece hpiece
    exact ⟨hof.source, (Nat.le_max_left _ _).trans hof.short, (Nat.le_max_right _ _).trans hof.short⟩
  · rw [List.length_map]
    exact hpieces.one_lt_length_iff
  · rw [List.length_map] at hsplit ⊢
    have hlong := hpieces.one_lt_length_iff.1 hsplit
    have hlen : (g + 1) / 2 ≤ m.target.len := by simp only [Merge.target]; omega
    refine ⟨fun p hp => ?_, hpieces.length_mul_le hlen⟩
    obtain ⟨piece, hpiece, rfl⟩ := List.mem_map.1 hp
    exact hpieces.half_le hlen piece hpiece

/-- A comparator that finds everything greater than everything, itself included. -/
theorem merge_shuffles_greater : ∃ (s : Store Nat) (calls : Array (Nat × Nat)) (made : List Merge),
    ((Work.steps (Task.run 2) (fun k => k / 2) 8
        [.merge (.root 0) ⟨.array, ⟨0, 5⟩, ⟨5, 3⟩, 0⟩]).run
      (Store.start #[4, 3, 0, 1, 2, 9, 7, 8] (Array.replicate 8 0))).run
      (fun _ _ => (.ok .gt : Except String Ordering)) = .ok ⟨([], s), calls⟩ ∧
    Shuffle [4, 3, 0, 1, 2] [9, 7, 8] (s.segment .workspace ⟨0, 8⟩) ∧ 1 < made.length := by
  obtain ⟨s, calls, made, hrun, hshuffle, -, -, -, -, hsplit, -⟩ := merge_shuffles (ε := String)
    (fun _ _ => .gt) (by decide : 0 < 2) (m := ⟨.array, ⟨0, 5⟩, ⟨5, 3⟩, 0⟩) (X := .root 0)
    (s := Store.start #[4, 3, 0, 1, 2, 9, 7, 8] (Array.replicate 8 0))
    ⟨by decide, by decide, by decide⟩ Nat.one_pos (fun k => k / 2) (by decide : _ ≤ 8)
  exact ⟨s, calls, made, hrun, hshuffle, hsplit.2 (by decide)⟩

end ForkJoin.Sorting

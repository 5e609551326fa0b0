import ForkJoin.Proofs.Contract
import ForkJoin.Sorting.Cut

/-!
# What a cut looks at, and where it falls

A cut of the first `ln` and `rn` elements of two runs looks at no other elements, and it falls in
the middle of the longer run whatever the comparisons answer.
-/
namespace ForkJoin.Sorting

open Calling

variable {α β : Type}

/-! ## What is looked at -/

theorem halve_congr {probe probe' : Nat → Calling α β Bool} {base size : Nat} (h : 0 < size)
    (hp : ∀ i, base ≤ i → i < base + size → probe i = probe' i) :
    halve probe base size h = halve probe' base size h := by
  induction size using Nat.strongRecOn generalizing base with
  | ind size ih =>
    rw [halve, halve]
    by_cases hs : size ≤ 1
    · rw [dif_pos hs, dif_pos hs]
    · rw [dif_neg hs, dif_neg hs, hp (base + size / 2) (by omega) (by omega),
        ih (size - size / 2) (by omega) (by omega) fun i hi hi' => hp i (by omega) (by omega),
        ih (size - size / 2) (by omega) (by omega) fun i hi hi' => hp i hi (by omega)]

theorem partitionPoint_congr {probe probe' : Nat → Calling α β Bool} {n : Nat}
    (hp : ∀ i < n, probe i = probe' i) : partitionPoint probe n = partitionPoint probe' n := by
  rw [partitionPoint, partitionPoint]
  by_cases hn : n = 0
  · rw [dif_pos hn, dif_pos hn]
  · rw [dif_neg hn, dif_neg hn, halve_congr (by omega) fun i _ hi => hp i (by omega)]
    congr 1
    funext found
    obtain ⟨k, hk⟩ := found
    simp only [hp k (by omega)]

theorem compareAt_congr {item : α} {run run' : Array α} {i : Nat} (h : run[i]? = run'[i]?) :
    compareAt item run i = compareAt item run' i := by
  rw [compareAt, compareAt, h]

/-- A cut looks at the elements that are to be merged, and at no others. -/
theorem cut?_congr {granularity ln rn : Nat} {left left' right right' : Array α}
    (hl : ∀ i < ln, left[i]? = left'[i]?) (hr : ∀ i < rn, right[i]? = right'[i]?) :
    cut? granularity left right ln rn = cut? granularity left' right' ln rn := by
  rw [cut?, cut?]
  split
  · split
    · rfl
    · rw [hl (ln / 2) (by omega)]
      have hprobes : ∀ item, partitionPoint (fun i => (· == .gt) <$> compareAt item right i) rn =
          partitionPoint (fun i => (· == .gt) <$> compareAt item right' i) rn :=
        fun item => partitionPoint_congr fun i hi => by rw [compareAt_congr (hr i hi)]
      simp only [hprobes]
  · split
    · rfl
    · rw [hr (rn / 2) (by omega)]
      have hprobes : ∀ item, partitionPoint (fun i => (· != .lt) <$> compareAt item left i) ln =
          partitionPoint (fun i => (· != .lt) <$> compareAt item left' i) ln :=
        fun item => partitionPoint_congr fun i hi => by rw [compareAt_congr (hl i hi)]
      simp only [hprobes]

theorem cut?_take {granularity ln rn : Nat} (left right : Array α) :
    cut? granularity (left.toList.take ln).toArray (right.toList.take rn).toArray ln rn =
      cut? granularity left right ln rn := by
  refine cut?_congr (fun i hi => ?_) fun i hi => ?_
  · rw [List.getElem?_toArray, List.getElem?_take, if_pos hi, Array.getElem?_toList]
  · rw [List.getElem?_toArray, List.getElem?_take, if_pos hi, Array.getElem?_toList]

/-! ## Where a cut falls -/

variable {K : Contract α β}

/-- Whatever the probes answer, the search comes to its end. -/
theorem halve_ends {probe : Nat → Calling α β Bool} {base size : Nat} (h : 0 < size)
    (hp : ∀ i, base ≤ i → i < base + size → (probe i).Ensures K fun _ => True) :
    (halve probe base size h).Ensures K fun _ => True := by
  induction size using Nat.strongRecOn generalizing base with
  | ind size ih =>
    rw [halve]
    by_cases hs : size ≤ 1
    · rw [dif_pos hs]
      trivial
    · rw [dif_neg hs]
      refine (hp (base + size / 2) (by omega) (by omega)).bind fun up _ => ?_
      cases up with
      | true =>
        exact (ih (size - size / 2) (by omega) (by omega) fun i hi hi' =>
          hp i (by omega) (by omega)).bind fun _ _ => trivial
      | false =>
        exact (ih (size - size / 2) (by omega) (by omega) fun i hi hi' =>
          hp i hi (by omega)).bind fun _ _ => trivial

theorem partitionPoint_ends {probe : Nat → Calling α β Bool} {n : Nat}
    (hp : ∀ i < n, (probe i).Ensures K fun _ => True) :
    (partitionPoint probe n).Ensures K fun _ => True := by
  rw [partitionPoint]
  by_cases hn : n = 0
  · rw [dif_pos hn]
    trivial
  · rw [dif_neg hn]
    refine (halve_ends (by omega) fun i _ hi => hp i (by omega)).bind ?_
    rintro ⟨k, hk⟩ _
    refine (hp k (by omega)).bind fun up _ => ?_
    cases up <;> trivial

theorem compareAt_ends {item : α} {run : Array α} {i : Nat} (h : i < run.size) :
    (compareAt item run i).Ensures .any fun _ => True := by
  rw [compareAt, Array.getElem?_eq_getElem h]
  exact ⟨trivial, fun _ _ => trivial⟩

/-- The longer run is cut in the middle; the cut parts neither side from nothing. -/
structure Cut.Halves (granularity : Nat) {ln rn : Nat} (c : Cut ln rn) : Prop where
  longer : granularity < max ln rn
  middle : rn ≤ ln ∧ c.left = ln / 2 ∨ ln < rn ∧ c.right = rn / 2

/-- Runs that are short enough are not cut. -/
theorem cut?_short {granularity : Nat} (left right : Array α) {ln rn : Nat}
    (h : max ln rn ≤ granularity) : cut? granularity left right ln rn = .done none := by
  rw [cut?]
  by_cases hlr : rn ≤ ln
  · rw [if_pos hlr, dif_pos (by omega)]
  · rw [if_neg hlr, dif_pos (by omega)]

/-- Whatever the comparisons answer, runs that are too long are cut, and the longer one is
halved. -/
theorem cut?_long {granularity : Nat} {left right : Array α} {ln rn : Nat} (hl : ln ≤ left.size)
    (hr : rn ≤ right.size) (h : granularity < max ln rn) :
    (cut? granularity left right ln rn).Ensures .any fun c? =>
      ∃ c, c? = some c ∧ c.Halves granularity := by
  rw [cut?]
  by_cases hlr : rn ≤ ln
  · rw [if_pos hlr, dif_neg (by omega),
      Array.getElem?_eq_getElem (by omega : ln / 2 < left.size)]
    refine (partitionPoint_ends fun i hi => ((compareAt_ends (by omega)).map)).bind ?_
    rintro ⟨k, hk⟩ _
    exact ⟨_, rfl, h, .inl ⟨hlr, rfl⟩⟩
  · rw [if_neg hlr, dif_neg (by omega),
      Array.getElem?_eq_getElem (by omega : rn / 2 < right.size)]
    refine (partitionPoint_ends fun i hi => ((compareAt_ends (by omega)).map)).bind ?_
    rintro ⟨k, hk⟩ _
    exact ⟨_, rfl, h, .inr ⟨by omega, rfl⟩⟩

/-- **A cut comes to its end whatever the comparisons answer**, and halves the longer run. -/
theorem cut?_halves (granularity : Nat) {left right : Array α} {ln rn : Nat}
    (hl : ln ≤ left.size) (hr : rn ≤ right.size) :
    (cut? granularity left right ln rn).Ensures .any fun c? =>
      ∀ c, c? = some c → c.Halves granularity := by
  by_cases h : max ln rn ≤ granularity
  · rw [cut?_short left right h]
    rintro _ ⟨⟩
  · refine (cut?_long hl hr (Nat.lt_of_not_le h)).mono ?_
    rintro _ ⟨c, rfl, hc⟩ _ ⟨⟩
    exact hc

theorem Cut.Halves.pos {granularity ln rn : Nat} {c : Cut ln rn} (h : c.Halves granularity)
    (hg : 0 < granularity) : 0 < c.left + c.right := by
  have := h.longer
  rcases h.middle with ⟨_, hc⟩ | ⟨_, hc⟩ <;> omega

end ForkJoin.Sorting

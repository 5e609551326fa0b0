import ForkJoin.Proofs.Sorting.Arrangement
import ForkJoin.Proofs.Sorting.Cuts
import ForkJoin.Proofs.Sorting.Recursive

/-!
# The parts of a sort are stable

Under a comparator that is a total preorder on the elements, insertion, merging, cutting and
quartering each leave a sorted list in which equal elements stand as before. A cut must put equal
elements of the right run behind those of the left run, so what is before the cut in the right run
is less than what is behind it in the left run, and not just no greater.
-/
namespace ForkJoin.Sorting

open Calling

variable {α : Type} {cmp : α → α → Ordering} {P : α → Prop} {xs ys : List α}

/-- `ys` is `xs` in the order of the comparator, and equal elements stand as before. -/
structure SortedFrom (cmp : α → α → Ordering) (P : α → Prop) (xs ys : List α) : Prop where
  moved : Rearranged cmp P xs ys
  sorted : ys.Pairwise fun a b => cmp a b ≠ .gt

/-- A run of elements that satisfy `P`, in the order of the comparator. -/
structure OrderedRun (cmp : α → α → Ordering) (P : α → Prop) (run : List α) : Prop where
  each : ∀ x ∈ run, P x
  sorted : run.Pairwise fun a b => cmp a b ≠ .gt

namespace OrderedRun

variable {run part : List α} {x y : α}

theorem sublist (h : OrderedRun cmp P run) (hsub : part.Sublist run) : OrderedRun cmp P part :=
  ⟨fun x hx => h.each x (hsub.subset hx), h.sorted.sublist hsub⟩

theorem head (h : OrderedRun cmp P (x :: run)) : P x := h.each x List.mem_cons_self

theorem tail (h : OrderedRun cmp P (x :: run)) : OrderedRun cmp P run :=
  h.sublist (List.sublist_cons_self x run)

theorem head_le (h : OrderedRun cmp P (x :: run)) (hy : y ∈ run) : cmp x y ≠ .gt :=
  (List.pairwise_cons.1 h.sorted).1 y hy

/-- An element is no greater than one that stands no earlier. -/
theorem le_of_index (hcmp : TotalPreorderOn cmp P) (h : OrderedRun cmp P run) {i j : Nat}
    (hij : i ≤ j) (hx : run[i]? = some x) (hy : run[j]? = some y) : cmp x y ≠ .gt := by
  rcases Nat.lt_or_eq_of_le hij with hij | rfl
  · obtain ⟨hi, rfl⟩ := List.getElem?_eq_some_iff.1 hx
    obtain ⟨hj, rfl⟩ := List.getElem?_eq_some_iff.1 hy
    exact List.pairwise_iff_getElem.1 h.sorted i j hi hj hij
  · obtain rfl := Option.some.inj (hx.symm.trans hy)
    exact hcmp.refl (h.each x (List.mem_of_getElem? hx))

end OrderedRun

/-- What a list was sorted to is a run in order. -/
theorem SortedFrom.orderedRun (h : SortedFrom cmp P xs ys) (hxs : ∀ x ∈ xs, P x) :
    OrderedRun cmp P ys :=
  ⟨h.moved.forall_mem hxs, h.sorted⟩

/-! ## Insertion -/

/-- The new element ends up behind those that it is not less than; the list is kept in reverse. -/
theorem insert_on (hcmp : TotalPreorderOn cmp P) {item : α} (hitem : P item)
    (hys : ∀ y ∈ ys, P y) (hsorted : ys.Pairwise fun a b => cmp b a ≠ .gt) :
    (insert item ys).Ensures (.on P cmp) fun zs => zs.Pairwise (fun a b => cmp b a ≠ .gt) ∧
      Rearranged cmp P (ys.reverse ++ [item]) zs.reverse := by
  induction ys with
  | nil => exact ⟨List.pairwise_singleton _ _, .refl _⟩
  | cons y ys ih =>
    have hy := hys y List.mem_cons_self
    have htail : ∀ z ∈ ys, P z := fun z hz => hys z (List.mem_cons_of_mem y hz)
    rw [List.pairwise_cons] at hsorted
    simp only [insert, ensures_call]
    refine ⟨⟨hitem, hy⟩, ?_⟩
    rintro _ rfl
    by_cases hlt : cmp item y = .lt
    · rw [if_pos hlt]
      refine Ensures.map ((ih htail hsorted.2).mono ?_)
      rintro zs ⟨hzs, hmoved⟩
      refine ⟨List.pairwise_cons.2 ⟨fun z hz => ?_, hzs⟩, ?_⟩
      · have hmem := hmoved.perm.mem_iff.1 (List.mem_reverse.2 hz)
        rcases List.mem_append.1 hmem with hz | hz
        · exact hsorted.1 z (List.mem_reverse.1 hz)
        · obtain rfl := List.mem_singleton.1 hz
          rw [hlt]
          exact Ordering.noConfusion
      · rw [List.reverse_cons, List.reverse_cons]
        have hswap : Rearranged cmp P ([y] ++ [item]) ([item] ++ [y]) :=
          .swap hcmp (by simpa using hy) (by simpa using hitem) (by simpa using hlt)
        have hall := ((Rearranged.refl ys.reverse).append hswap).trans
          ((List.append_assoc ys.reverse [item] [y]) ▸ hmoved.append (.refl [y]))
        rwa [List.append_assoc]
    · rw [if_neg hlt]
      have hle : cmp y item ≠ .gt := fun hgt => hlt ((hcmp.swap item y hitem hy).2 hgt)
      refine ⟨List.pairwise_cons.2 ⟨fun z hz => ?_, List.pairwise_cons.2 hsorted⟩, ?_⟩
      · rcases List.mem_cons.1 hz with rfl | hz
        · exact hle
        · exact hcmp.trans z y item (htail z hz) hy hitem (hsorted.1 z hz) hle
      · rw [List.reverse_cons (a := item)]
        exact .refl _

theorem insertAll_on (hcmp : TotalPreorderOn cmp P) {sorted : List α}
    (hsorted : ∀ y ∈ sorted, P y) (hxs : ∀ x ∈ xs, P x)
    (hpair : sorted.Pairwise fun a b => cmp b a ≠ .gt) :
    (insertAll sorted xs).Ensures (.on P cmp) fun ys =>
      SortedFrom cmp P (sorted.reverse ++ xs) ys := by
  induction xs generalizing sorted with
  | nil =>
    rw [List.append_nil]
    exact ⟨.refl _, List.pairwise_reverse.2 hpair⟩
  | cons x xs ih =>
    have hx := hxs x List.mem_cons_self
    have htail : ∀ z ∈ xs, P z := fun z hz => hxs z (List.mem_cons_of_mem x hz)
    refine (insert_on hcmp hx hsorted hpair).bind fun zs hzs => ?_
    have hmem : ∀ z ∈ zs, P z := by
      intro z hz
      refine hzs.2.forall_mem (fun w hw => ?_) z (List.mem_reverse.2 hz)
      rcases List.mem_append.1 hw with hw | hw
      · exact hsorted w (List.mem_reverse.1 hw)
      · exact List.mem_singleton.1 hw ▸ hx
    refine (ih hmem htail hzs.1).mono fun ys hys => ⟨?_, hys.sorted⟩
    have hmoved := (hzs.2.append (.refl xs)).trans hys.moved
    rwa [List.append_assoc] at hmoved

theorem insertionSort_on (hcmp : TotalPreorderOn cmp P) (hxs : ∀ x ∈ xs, P x) :
    (insertionSort xs).Ensures (.on P cmp) (SortedFrom cmp P xs) :=
  insertAll_on hcmp (by simp) hxs .nil

/-! ## Merging -/

section

variable (hcmp : TotalPreorderOn cmp P) {x y : α} {zs : List α}
  (hleft : OrderedRun cmp P (x :: xs)) (hright : OrderedRun cmp P (y :: ys))

include hcmp hleft hright

/-- The first of the left run comes first if it is no greater than the first of the right run. -/
theorem SortedFrom.cons_left (hle : cmp x y ≠ .gt)
    (hzs : SortedFrom cmp P (xs ++ y :: ys) zs) :
    SortedFrom cmp P (x :: xs ++ y :: ys) (x :: zs) := by
  refine ⟨hzs.moved.cons x, List.pairwise_cons.2 ⟨fun z hz => ?_, hzs.sorted⟩⟩
  rcases List.mem_append.1 (hzs.moved.perm.mem_iff.1 hz) with hz | hz
  · exact hleft.head_le hz
  · rcases List.mem_cons.1 hz with rfl | hz
    · exact hle
    · exact hcmp.trans x y z hleft.head hright.head (hright.tail.each z hz) hle
        (hright.head_le hz)

/-- The first of the right run passes the left run if it is less than the first of it. -/
theorem SortedFrom.cons_right (hgt : cmp x y = .gt) (hzs : SortedFrom cmp P (x :: xs ++ ys) zs) :
    SortedFrom cmp P (x :: xs ++ y :: ys) (y :: zs) := by
  have hx := hleft.head
  have hy := hright.head
  have hxs := hleft.tail.each
  have hlt : cmp y x = .lt := (hcmp.swap y x hy hx).2 hgt
  have hle : cmp y x ≠ .gt := by
    rw [hlt]
    exact Ordering.noConfusion
  constructor
  · have hless : ∀ z ∈ x :: xs, ∀ w ∈ [y], cmp w z = .lt := by
      intro z hz w hw
      obtain rfl := List.mem_singleton.1 hw
      rcases List.mem_cons.1 hz with rfl | hz
      · exact hlt
      · refine (hcmp.swap w z hy (hxs z hz)).2 (Classical.byContradiction fun hzw => ?_)
        exact hcmp.trans x z w hx (hxs z hz) hy (hleft.head_le hz) hzw hgt
    have hswap := Rearranged.swap hcmp hleft.each (by simpa using hy) hless
    have hmoved := (hswap.append (.refl ys)).trans ((Rearranged.refl [y]).append hzs.moved)
    simpa using hmoved
  · refine List.pairwise_cons.2 ⟨fun z hz => ?_, hzs.sorted⟩
    rcases List.mem_append.1 (hzs.moved.perm.mem_iff.1 hz) with hz | hz
    · rcases List.mem_cons.1 hz with rfl | hz
      · exact hle
      · exact hcmp.trans y x z hy hx (hxs z hz) hle (hleft.head_le hz)
    · exact hright.head_le hz

end

theorem mergeInto_on (hcmp : TotalPreorderOn cmp P) {out left right : List α}
    (hleft : OrderedRun cmp P left) (hright : OrderedRun cmp P right) :
    (mergeInto out left right).Ensures (.on P cmp) fun zs =>
      ∃ ys, zs = out.reverse ++ ys ∧ SortedFrom cmp P (left ++ right) ys := by
  fun_induction mergeInto out left right with
  | case1 out right => exact ⟨right, List.reverseAux_eq, .refl _, hright.sorted⟩
  | case2 out left _ =>
    exact ⟨left, List.reverseAux_eq, by rw [List.append_nil]; exact .refl _, hleft.sorted⟩
  | case3 out x xs y ys ihr ihl =>
    simp only [ensures_call]
    refine ⟨⟨hleft.head, hright.head⟩, ?_⟩
    rintro _ rfl
    by_cases hgt : cmp x y = .gt
    · rw [if_pos hgt]
      refine (ihr hleft hright.tail).mono ?_
      rintro _ ⟨zs, rfl, hzs⟩
      exact ⟨y :: zs, by rw [List.reverse_cons, List.append_assoc]; rfl,
        hzs.cons_right hcmp hleft hright hgt⟩
    · rw [if_neg hgt]
      refine (ihl hleft.tail hright).mono ?_
      rintro _ ⟨zs, rfl, hzs⟩
      exact ⟨x :: zs, by rw [List.reverse_cons, List.append_assoc]; rfl,
        hzs.cons_left hcmp hleft hright hgt⟩

theorem merge_on (hcmp : TotalPreorderOn cmp P) {left right : List α}
    (hleft : OrderedRun cmp P left) (hright : OrderedRun cmp P right) :
    (merge left right).Ensures (.on P cmp) (SortedFrom cmp P (left ++ right)) := by
  refine (mergeInto_on hcmp hleft hright).mono ?_
  rintro _ ⟨ys, rfl, hys⟩
  exact hys

end ForkJoin.Sorting

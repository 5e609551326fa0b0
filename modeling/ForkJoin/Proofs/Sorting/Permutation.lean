import ForkJoin.Proofs.Sorting.ByParts

/-!
# Sorting only moves elements

Whatever the comparator answers, and even if it answers the same question differently, each part
of a sort comes to its end and leaves the elements it was given, in some order.
-/
namespace ForkJoin.Sorting

open Calling

variable {α : Type}

/-! ## Insertion -/

theorem insert_perm (item : α) (ys : List α) :
    (insert item ys).Ensures .any fun zs => zs.Perm (item :: ys) := by
  induction ys with
  | nil => exact .refl _
  | cons y ys ih =>
    simp only [insert, ensures_call]
    refine ⟨trivial, fun o _ => ?_⟩
    split
    · refine Ensures.map (ih.mono fun zs hzs => ?_)
      exact (hzs.cons y).trans (.swap item y ys)
    · exact .refl _

theorem insertAll_perm (sorted xs : List α) :
    (insertAll sorted xs).Ensures .any fun zs => zs.Perm (sorted ++ xs) := by
  induction xs generalizing sorted with
  | nil => exact (List.append_nil sorted).symm ▸ sorted.reverse_perm
  | cons x xs ih =>
    refine (insert_perm x sorted).bind fun zs hzs => (ih zs).mono fun ws hws => ?_
    exact hws.trans ((hzs.append_right xs).trans List.perm_middle.symm)

theorem insertionSort_perm (xs : List α) :
    (insertionSort xs).Ensures .any fun zs => zs.Perm xs :=
  insertAll_perm [] xs

/-! ## Merging -/

theorem mergeInto_perm (out left right : List α) :
    (mergeInto out left right).Ensures .any fun zs => zs.Perm (out ++ (left ++ right)) := by
  fun_induction mergeInto out left right with
  | case1 out right =>
    rw [ensures_done, List.reverseAux_eq]
    exact out.reverse_perm.append_right right
  | case2 out left _ =>
    rw [ensures_done, List.reverseAux_eq, List.append_nil]
    exact out.reverse_perm.append_right left
  | case3 out x xs y ys ihr ihl =>
    simp only [ensures_call]
    refine ⟨trivial, fun o _ => ?_⟩
    split
    · refine ihr.mono fun zs hzs => hzs.trans ?_
      exact List.perm_middle.symm.trans (List.perm_middle.symm.append_left out)
    · exact ihl.mono fun zs hzs => hzs.trans List.perm_middle.symm

theorem merge_perm (left right : List α) :
    (merge left right).Ensures .any fun zs => zs.Perm (left ++ right) :=
  mergeInto_perm [] left right

/-- Two runs cut in two are the part before the cut and the part behind it. -/
theorem perm_cut (left right : List α) (i j : Nat) :
    ((left.take i ++ right.take j) ++ (left.drop i ++ right.drop j)).Perm (left ++ right) := by
  have hl := List.take_append_drop i left
  have hr := List.take_append_drop j right
  conv => rhs; rw [← hl, ← hr]
  rw [List.append_assoc, List.append_assoc]
  refine List.Perm.append_left _ ?_
  rw [← List.append_assoc, ← List.append_assoc]
  exact List.perm_append_comm.append_right _

theorem splitMerge_perm {granularity : Nat} (hg : 0 < granularity) (left right : List α) :
    (splitMerge granularity left right).Ensures .any fun zs => zs.Perm (left ++ right) := by
  refine splitMerge_ensures (fun _ _ => True) (fun left right zs => zs.Perm (left ++ right)) hg
    (fun left right _ => merge_perm left right) ?_ trivial
  intro left right _
  refine (cut?_halves granularity (by simp) (by simp)).mono fun _ _ c _ => ?_
  refine ⟨trivial, trivial, fun head tail hhead htail => ?_⟩
  exact (hhead.append htail).trans (perm_cut left right c.left c.right)

/-! ## Sorting -/

theorem sortShort_perm (xs : List α) : (sortShort xs).Ensures .any fun zs => zs.Perm xs := by
  refine sortShort_ensures (fun _ => True) (fun xs zs => zs.Perm xs) (fun _ _ => trivial)
    (fun _ _ h => h.length_eq) (fun xs _ => insertionSort_perm xs) ?_ trivial
  intro xs xs' left right _ hleft hright _ _
  have hall := hleft.append hright
  refine ⟨trivial, fun o _ => ?_⟩
  split
  · exact (merge_perm left right).mono fun zs hzs => hzs.trans hall
  · exact hall

/-- Two lists that were sorted are merged to the elements of both. -/
theorem splitMerge_perm_of_perm {granularity : Nat} (hg : 0 < granularity) {xs xs' ys ys' : List α}
    (h : ys.Perm xs) (h' : ys'.Perm xs') :
    (splitMerge granularity ys ys').Ensures .any fun zs => zs.Perm (xs ++ xs') :=
  (splitMerge_perm hg ys ys').mono fun _ hzs => hzs.trans (h.append h')

theorem sortQuarters_perm {granularity : Nat} (hg : 0 < granularity) (xs : List α) :
    (sortQuarters granularity hg xs).Ensures .any fun zs => zs.Perm xs :=
  sortQuarters_ensures (fun _ => True) (fun xs zs => zs.Perm xs) (fun _ _ => trivial) hg
    (fun xs _ => sortShort_perm xs) (fun _ _ _ _ _ h h' => splitMerge_perm_of_perm hg h h') trivial

end ForkJoin.Sorting

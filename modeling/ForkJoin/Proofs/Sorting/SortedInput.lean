import Mathlib.Data.List.Chain
import Mathlib.Data.List.Forall2
import ForkJoin.Proofs.Interleaving
import ForkJoin.Sorting.MergeSort

/-!
# The sort of one worker on a sorted list

A list is taken for sorted if no element is found less than the one before it, and none greater than
the one after it. This is about neighbours only, and nothing is asked of the comparator besides. Then
insertion compares each element with the one before it and leaves it there, and two halves are left
as they stand after one look at the ends that meet. So each two neighbours are compared once, in a
block or where two halves meet, and no element is moved.
-/
namespace ForkJoin.Sorting

open Calling

variable {α ε : Type} {cmp : α → α → Ordering}

/-- No element is found out of place beside its neighbours. -/
abbrev InPlace (cmp : α → α → Ordering) (xs : List α) : Prop :=
  xs.IsChain fun a b => cmp b a ≠ .lt ∧ cmp a b ≠ .gt

/-! ## Neighbours -/

/-- The element at a position and the one after it are compared, in either order. -/
def Neighbours (xs : List α) (i : Nat) (call : α × α) : Prop :=
  ∃ a b, xs[i]? = some a ∧ xs[i + 1]? = some b ∧ (call = (a, b) ∨ call = (b, a))

/-- Each two neighbours are compared once, and nothing else is compared: `is` are the positions of
the first of each two, in the order of the comparisons. -/
def ComparesNeighbours (xs : List α) (calls : List (α × α)) : Prop :=
  ∃ is : List Nat, is.Perm (List.range (xs.length - 1)) ∧ List.Forall₂ (Neighbours xs) is calls

variable {xs left right : List α} {i : Nat} {call : α × α} {calls more : List (α × α)} {a b : α}

theorem Neighbours.append_right (h : Neighbours left i call) :
    Neighbours (left ++ right) i call := by
  obtain ⟨a, b, ha, hb, hcall⟩ := h
  have hi := (List.getElem?_eq_some_iff.1 ha).1
  have hi' := (List.getElem?_eq_some_iff.1 hb).1
  exact ⟨a, b, (List.getElem?_append_left hi).trans ha, (List.getElem?_append_left hi').trans hb,
    hcall⟩

theorem Neighbours.append_left (h : Neighbours right i call) :
    Neighbours (left ++ right) (left.length + i) call := by
  obtain ⟨a, b, ha, hb, hcall⟩ := h
  refine ⟨a, b, ?_, ?_, hcall⟩
  · rw [List.getElem?_append_right (Nat.le_add_right _ _), Nat.add_sub_cancel_left, ha]
  · rw [Nat.add_assoc, List.getElem?_append_right (Nat.le_add_right _ _), Nat.add_sub_cancel_left,
      hb]

theorem neighbours_at_ends (ha : left.getLast? = some a) (hb : right.head? = some b) :
    Neighbours (left ++ right) (left.length - 1) (a, b) := by
  rw [List.getLast?_eq_getElem?] at ha
  rw [List.head?_eq_getElem?] at hb
  have hlt := (List.getElem?_eq_some_iff.1 ha).1
  refine ⟨a, b, (List.getElem?_append_left hlt).trans ha, ?_, .inl rfl⟩
  rw [Nat.sub_add_cancel (by omega), List.getElem?_append_right (Nat.le_refl _), Nat.sub_self, hb]

/-- The neighbours in two lists that are put together are those in either of them, and the ends that
meet. -/
theorem ComparesNeighbours.append (h : ComparesNeighbours left calls)
    (h' : ComparesNeighbours right more) (ha : left.getLast? = some a) (hb : right.head? = some b) :
    ComparesNeighbours (left ++ right) (calls ++ (more ++ [(a, b)])) := by
  obtain ⟨is, hperm, his⟩ := h
  obtain ⟨js, hperm', hjs⟩ := h'
  have hl : 0 < left.length := List.length_pos_of_mem (List.mem_of_getLast? ha)
  have hr : 0 < right.length := List.length_pos_of_mem (List.mem_of_head? hb)
  refine ⟨is ++ (js.map (left.length + ·) ++ [left.length - 1]), ?_, ?_⟩
  · have hrange : List.range ((left ++ right).length - 1) =
        List.range (left.length - 1) ++ ([left.length - 1] ++
          (List.range (right.length - 1)).map (left.length + ·)) := by
      rw [← List.append_assoc, ← List.range_succ, Nat.succ_eq_add_one, Nat.sub_add_cancel hl,
        ← List.range_add, List.length_append, Nat.add_sub_assoc hr]
    rw [hrange]
    exact hperm.append (((hperm'.map _).append_right _).trans List.perm_append_comm)
  · refine List.rel_append (his.imp fun _ _ => Neighbours.append_right) (List.rel_append ?_ ?_)
    · exact List.forall₂_map_left_iff.2 (hjs.imp fun _ _ => Neighbours.append_left)
    · exact .cons (neighbours_at_ends ha hb) .nil

/-- Each element beside the one before it. -/
theorem comparesNeighbours_zip (x : α) (xs : List α) :
    ComparesNeighbours (x :: xs) (xs.zip (x :: xs)) := by
  have hlen : (xs.zip (x :: xs)).length = xs.length := by
    rw [List.length_zip, List.length_cons]
    omega
  refine ⟨List.range xs.length, .refl _, List.forall₂_iff_get.2 ⟨?_, fun i hi hi' => ?_⟩⟩
  · rw [List.length_range, hlen]
  · rw [hlen] at hi'
    have hi'' : i < (x :: xs).length := Nat.lt_succ_of_lt hi'
    simp only [List.get_eq_getElem, List.getElem_range, List.getElem_zip]
    exact ⟨_, _, List.getElem?_eq_getElem hi'', List.getElem?_eq_getElem hi', .inr rfl⟩

/-! ## Insertion -/

/-- An element is compared with the one before it, and stays behind it. -/
theorem returns_insertAll (y : α) (ys : List α) (h : InPlace cmp (y :: xs)) :
    Returns cmp (insertAll (y :: ys) xs) (ys.reverse ++ y :: xs) (xs.zip (y :: xs)) := by
  induction xs generalizing y ys with
  | nil =>
    rw [insertAll, List.reverse_cons]
    exact .done
  | cons x xs ih =>
    obtain ⟨⟨hlt, -⟩, hrest⟩ := List.isChain_cons_cons.1 h
    have hall := ih x (y :: ys) hrest
    rw [List.reverse_cons, List.append_assoc] at hall
    rw [insertAll, insert, call_bind]
    refine .call ?_
    rw [if_neg hlt]
    exact hall

/-- **A sorted block is left as it is.** -/
theorem exists_returns_insertionSort (h : InPlace cmp xs) : ∃ calls,
    Returns cmp (insertionSort xs) xs calls ∧ ComparesNeighbours xs calls := by
  cases xs with
  | nil => exact ⟨[], .done, [], .refl _, .nil⟩
  | cons x xs => exact ⟨_, returns_insertAll x [] h, comparesNeighbours_zip x xs⟩

/-! ## Sorting -/

/-- The ends that meet are found in place. -/
theorem InPlace.ends (h : InPlace cmp (left ++ right)) (ha : left.getLast? = some a)
    (hb : right.head? = some b) : cmp a b ≠ .gt :=
  ((List.isChain_append.1 h).2.2 a ha b hb).2

/-- **A sorted list and the scratch area are left as they are.** -/
theorem exists_returns_mergeSort (scratch xs : List α) (hscratch : xs.length ≤ scratch.length)
    (h : InPlace cmp xs) : ∃ calls,
      Returns cmp (mergeSort xs scratch) (xs, scratch) calls ∧ ComparesNeighbours xs calls := by
  induction hlen : xs.length using Nat.strongRecOn generalizing scratch xs with
  | ind len ih =>
    subst hlen
    rw [mergeSort]
    by_cases hshort : xs.length ≤ insertionLimit
    · obtain ⟨calls, hreturns, hcalls⟩ := exists_returns_insertionSort h
      rw [dif_pos hshort]
      exact ⟨calls, hreturns.map, hcalls⟩
    · have hlong : 16 < xs.length := Nat.lt_of_not_le hshort
      rw [dif_neg hshort, if_neg (Nat.not_lt.2 hscratch)]
      obtain ⟨calls, hleft, hcalls⟩ := ih _ (by rw [List.length_take]; omega)
        (scratch.take (xs.length / 2)) (xs.take (xs.length / 2))
        (by rw [List.length_take, List.length_take]; omega) (h.take _) rfl
      obtain ⟨more, hright, hmore⟩ := ih _ (by rw [List.length_drop]; omega)
        (scratch.drop (xs.length / 2)) (xs.drop (xs.length / 2))
        (by rw [List.length_drop, List.length_drop]; omega) (h.drop _) rfl
      have hsplit := List.take_append_drop (xs.length / 2) xs
      have hl : xs.take (xs.length / 2) ≠ [] := by
        rw [← List.length_pos_iff, List.length_take]
        omega
      have hr : xs.drop (xs.length / 2) ≠ [] := by
        rw [← List.length_pos_iff, List.length_drop]
        omega
      have ha := List.getLast?_eq_some_getLast hl
      have hb := List.head?_eq_some_head hr
      have hends : InPlace cmp (xs.take (xs.length / 2) ++ xs.drop (xs.length / 2)) := by
        rwa [hsplit]
      have hall := hcalls.append hmore ha hb
      rw [hsplit] at hall
      refine ⟨_, hleft.bind (hright.bind ?_), hall⟩
      simp only [ha, hb, ask_bind]
      refine .call ?_
      rw [if_neg (hends.ends ha hb), hsplit, List.take_append_drop]
      exact .done

/-- **A sorted list is recognised by comparing each two neighbours once.** It is left as it is, and so
is the scratch area. -/
theorem mergeSort_of_inPlace (cmp : α → α → Ordering) {xs scratch : List α}
    (hscratch : xs.length ≤ scratch.length)
    (h : xs.IsChain fun a b => cmp b a ≠ .lt ∧ cmp a b ≠ .gt) : ∃ calls,
      (mergeSort xs scratch).run (fun a b => (.ok (cmp a b) : Except ε Ordering)) =
        .ok ⟨(xs, scratch), calls⟩ ∧
      calls.size = xs.length - 1 ∧ ComparesNeighbours xs calls.toList := by
  obtain ⟨calls, hreturns, hcalls⟩ := exists_returns_mergeSort scratch xs hscratch h
  refine ⟨calls.toArray, hreturns.run, ?_, hcalls⟩
  obtain ⟨is, hperm, his⟩ := hcalls
  rw [List.size_toArray, ← his.length_eq, hperm.length_eq, List.length_range]

/-- A comparator that knows neighbours only, and takes all others for out of place. -/
theorem mergeSort_range_of_inPlace : ∃ calls,
    (mergeSort (List.range 20) (List.replicate 20 0)).run (fun a b =>
      (.ok (if a + 1 = b ∨ b + 1 = a then .eq else .gt) : Except Empty Ordering)) =
        .ok ⟨(List.range 20, List.replicate 20 0), calls⟩ ∧
      calls.size = 19 ∧ ComparesNeighbours (List.range 20) calls.toList :=
  mergeSort_of_inPlace (fun a b => if a + 1 = b ∨ b + 1 = a then .eq else .gt) (by decide)
    (by decide)

end ForkJoin.Sorting

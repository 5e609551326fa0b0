import ForkJoin.Proofs.Refusals
import ForkJoin.Proofs.Sorting.AnyPolicy
import ForkJoin.Proofs.Sorting.OnImages

/-!
# No element is compared with itself

An element may be in several places at a time: it is held while it is inserted, and copied from one
buffer to the other for a merge. Where elements come from is seen if the positions of the array are
sorted in their place, by the comparator that looks at the elements there: the sort of the elements is
the image of this one. Positions are all different, and two runs that are merged have none in common,
however wrong their order is. So no position ever meets itself, with equal elements or without.
-/
namespace ForkJoin.Sorting

open Calling

variable {α ε : Type} {P : α → Prop}

/-- Different elements that satisfy `P`. -/
structure Tokens (P : α → Prop) (xs : List α) : Prop where
  nodup : xs.Nodup
  each : ∀ x ∈ xs, P x

namespace Tokens

variable {xs ys : List α} {a b : α}

theorem perm (h : Tokens P xs) (hperm : ys.Perm xs) : Tokens P ys :=
  ⟨hperm.nodup_iff.2 h.nodup, fun y hy => h.each y (hperm.mem_iff.1 hy)⟩

theorem sublist (h : Tokens P xs) (hsub : ys.Sublist xs) : Tokens P ys :=
  ⟨hsub.nodup h.nodup, fun y hy => h.each y (hsub.subset hy)⟩

theorem tail (h : Tokens P (a :: xs)) : Tokens P xs := h.sublist (List.sublist_cons_self a xs)

theorem left (h : Tokens P (xs ++ ys)) : Tokens P xs := h.sublist (List.sublist_append_left xs ys)

theorem right (h : Tokens P (xs ++ ys)) : Tokens P ys := h.sublist (List.sublist_append_right xs ys)

theorem distinct (h : Tokens P (xs ++ ys)) (ha : a ∈ xs) (hb : b ∈ ys) : a ≠ b ∧ P a ∧ P b :=
  ⟨(List.nodup_append.1 h.nodup).2.2 a ha b hb, h.each a (List.mem_append_left ys ha),
    h.each b (List.mem_append_right xs hb)⟩

end Tokens

variable {xs ys left right : List α} {item : α}

/-! ## Insertion and merging -/

theorem insert_distinct (h : Tokens P (item :: ys)) :
    (insert item ys).Ensures (.distinct P) fun _ => True := by
  induction ys with
  | nil => trivial
  | cons y ys ih =>
    have hitem : Tokens P ([item] ++ y :: ys) := h
    rw [insert, ensures_call]
    refine ⟨hitem.distinct (List.mem_singleton_self item) List.mem_cons_self, fun o _ => ?_⟩
    split
    · exact (ih (h.perm (.swap item y ys)).tail).map
    · trivial

theorem insertAll_distinct {sorted : List α} (h : Tokens P (sorted ++ xs)) :
    (insertAll sorted xs).Ensures (.distinct P) fun _ => True := by
  induction xs generalizing sorted with
  | nil => trivial
  | cons x xs ih =>
    have hx : Tokens P ((x :: sorted) ++ xs) := h.perm List.perm_middle.symm
    refine ((insert_distinct hx.left).of_any (insert_perm x sorted)).bind fun zs hzs => ?_
    exact ih (hx.perm (hzs.append_right xs))

/-- The runs need not be in order. -/
theorem mergeInto_distinct {out : List α} (h : Tokens P (left ++ right)) :
    (mergeInto out left right).Ensures (.distinct P) fun _ => True := by
  fun_induction mergeInto out left right with
  | case1 out right => trivial
  | case2 out left _ => trivial
  | case3 out x xs y ys ihr ihl =>
    rw [ensures_call]
    refine ⟨h.distinct List.mem_cons_self List.mem_cons_self, fun o _ => ?_⟩
    split
    · exact ihr (h.perm List.perm_middle.symm).tail
    · exact ihl h.tail

theorem merge_distinct (h : Tokens P (left ++ right)) :
    (merge left right).Ensures (.distinct P) fun _ => True :=
  mergeInto_distinct h

/-! ## Cutting -/

theorem compareAt_distinct {run : List α} {i : Nat} (h : Tokens P (left ++ right))
    (hitem : item ∈ left ∧ run = right ∨ item ∈ right ∧ run = left) (hi : i < run.length) :
    (compareAt item run.toArray i).Ensures (.distinct P) fun _ => True := by
  have hmem := List.getElem_mem hi
  rw [compareAt, List.getElem?_toArray, List.getElem?_eq_getElem hi]
  refine ⟨?_, fun _ _ => trivial⟩
  rcases hitem with ⟨hitem, rfl⟩ | ⟨hitem, rfl⟩
  · exact h.distinct hitem hmem
  · obtain ⟨hne, hP, hP'⟩ := h.distinct hmem hitem
    exact ⟨hne.symm, hP', hP⟩

/-- The element at which one run is cut is compared with elements of the other one only. -/
theorem cut?_distinct (granularity : Nat) (h : Tokens P (left ++ right)) :
    (cut? granularity left.toArray right.toArray left.length right.length).Ensures (.distinct P)
      fun _ => True := by
  rw [cut?]
  by_cases hlr : right.length ≤ left.length
  · rw [if_pos hlr]
    by_cases hg : left.length ≤ granularity
    · rw [dif_pos hg]
      trivial
    · rw [dif_neg hg, List.getElem?_toArray]
      cases hitem : left[left.length / 2]? with
      | none =>
        rw [List.getElem?_eq_none_iff] at hitem
        omega
      | some item =>
        have hmem := List.mem_of_getElem? hitem
        exact (partitionPoint_ends fun i hi =>
          (compareAt_distinct h (.inl ⟨hmem, rfl⟩) hi).map).bind fun _ _ => trivial
  · rw [if_neg hlr]
    by_cases hg : right.length ≤ granularity
    · rw [dif_pos hg]
      trivial
    · rw [dif_neg hg, List.getElem?_toArray]
      cases hitem : right[right.length / 2]? with
      | none =>
        rw [List.getElem?_eq_none_iff] at hitem
        omega
      | some item =>
        have hmem := List.mem_of_getElem? hitem
        exact (partitionPoint_ends fun i hi =>
          (compareAt_distinct h (.inr ⟨hmem, rfl⟩) hi).map).bind fun _ _ => trivial

theorem splitMerge_distinct {granularity : Nat} (hg : 0 < granularity)
    (h : Tokens P (left ++ right)) :
    (splitMerge granularity left right).Ensures (.distinct P) fun zs =>
      zs.Perm (left ++ right) := by
  refine Ensures.of_any ?_ (splitMerge_perm hg left right)
  refine splitMerge_ensures (fun left right => Tokens P (left ++ right)) (fun _ _ _ => True) hg
    (fun _ _ => merge_distinct) ?_ h
  intro left right h
  refine (cut?_distinct granularity h).mono fun _ _ c _ => ?_
  have hparts := h.perm (perm_cut left right c.left c.right)
  exact ⟨hparts.left, hparts.right, fun _ _ _ _ => trivial⟩

/-! ## Sorting -/

theorem sortShort_distinct (h : Tokens P xs) :
    (sortShort xs).Ensures (.distinct P) fun zs => zs.Perm xs := by
  refine sortShort_ensures (Tokens P) (fun xs zs => zs.Perm xs) Tokens.sublist
    (fun _ _ h => h.length_eq) (fun xs h => ?_) ?_ h
  · exact (insertAll_distinct (h : Tokens P ([] ++ xs))).of_any (insertionSort_perm xs)
  · intro xs xs' left right h hleft hright hl hr
    have hmoved := hleft.append hright
    have hall := h.perm hmoved
    refine ⟨hall.distinct (List.getLast_mem hl) (List.head_mem hr), fun o _ => ?_⟩
    split
    · exact (merge_distinct hall).of_any ((merge_perm left right).mono fun _ hzs => hzs.trans hmoved)
    · exact hmoved

theorem sortQuarters_distinct {granularity : Nat} (hg : 0 < granularity) (h : Tokens P xs) :
    (sortQuarters granularity hg xs).Ensures (.distinct P) fun zs => zs.Perm xs := by
  refine sortQuarters_ensures (Tokens P) (fun xs zs => zs.Perm xs) Tokens.sublist hg
    (fun _ => sortShort_distinct) ?_ h
  intro xs xs' ys ys' h hys hys'
  have hmoved := hys.append hys'
  exact (splitMerge_distinct hg (h.perm hmoved)).mono fun _ hzs => hzs.trans hmoved

/-- **The sort of different elements compares two different ones each time**, whatever the answers. -/
theorem ofWindow_distinct (tuning : Tuning) {xs : Array α} (hxs : xs.size < 2 ^ 64)
    (h : Tokens P xs.toList) :
    (ofWindow tuning xs).Ensures (.distinct P) fun ys => ys.toList.Perm xs.toList :=
  ofWindow_ensures (Q := fun ys => ys.Perm xs.toList) hxs (sortShort_distinct h)
    (fun _ hg => sortQuarters_distinct hg h) tuning

/-! ## Positions -/

/-- Two different positions of a window. -/
def TwoPlaces {n : Nat} (w : Window) (call : Fin n × Fin n) : Prop :=
  call.1 ≠ call.2 ∧ (w.start ≤ call.1 ∧ call.1 < w.stop) ∧ w.start ≤ call.2 ∧ call.2 < w.stop

/-- The positions of a window of an array of `n` elements. -/
def places (n : Nat) (w : Window) : Array (Fin n) :=
  (Array.finRange n).extract w.start w.stop

theorem tokens_places (n : Nat) (w : Window) :
    Tokens (fun i : Fin n => w.start ≤ i ∧ i < w.stop) (places n w).toList := by
  have hall : (Array.finRange n).toList.Nodup := by
    rw [Array.finRange, Array.toList_ofFn]
    exact List.nodup_finRange n
  constructor
  · rw [places, Array.toList_extract, List.extract_eq_take_drop]
    exact ((List.take_sublist _ _).trans (List.drop_sublist _ _)).nodup hall
  · intro i hi
    obtain ⟨k, hk, rfl⟩ := Array.mem_iff_getElem.1 (Array.mem_toList_iff.1 hi)
    simp only [places, Array.size_extract, Array.size_finRange, Array.getElem_extract,
      Array.getElem_finRange, Fin.val_cast] at hk ⊢
    omega

/-- The elements at all positions are the array. -/
theorem map_finRange (xs : Array α) : (Array.finRange xs.size).map (xs[·]) = xs := by
  rw [Array.finRange, Array.map_ofFn]
  exact Array.ofFn_getElem

theorem map_places (xs : Array α) (w : Window) :
    (places xs.size w).map (xs[·]) = xs.extract w.start w.stop := by
  rw [places, Array.map_extract, map_finRange]

theorem size_places {n : Nat} {w : Window} (hstop : w.stop ≤ n) :
    (places n w).size = w.stop - w.start := by
  rw [places, Array.size_extract, Array.size_finRange, Nat.min_eq_left hstop]

variable {γ γ' : Type} {xs : Array α} {w : Window}

/-- Two runs that come to their end, the one with the positions of `xs` and the other with the elements
there, which is the image of the first; each comparison is of two different positions of the window. -/
def ComparesPlaces (xs : Array α) (w : Window) (image : γ → γ')
    (places : Except (Failure ε) (Report (Fin xs.size) γ))
    (elements : Except (Failure ε) (Report α γ')) : Prop :=
  ∃ result calls, places = .ok ⟨result, calls⟩ ∧
    elements = .ok ⟨image result, calls.map fun call => (xs[call.1], xs[call.2])⟩ ∧
    ∀ call ∈ calls, TwoPlaces w call

theorem comparesPlaces_of_returns {cmp : α → α → Ordering} {image : γ → γ'}
    {x : Calling (Fin xs.size) Ordering γ} {x' : Calling α Ordering γ'} {result : γ}
    {calls : List (Fin xs.size × Fin xs.size)}
    (hx : Images (xs[·]) (fun c c' => c' = image c) x x')
    (h : Returns (fun i j => cmp xs[i] xs[j]) x result calls)
    (hcalls : ∀ call ∈ calls, TwoPlaces w call) :
    ComparesPlaces xs w image (x.run fun i j => (.ok (cmp xs[i] xs[j]) : Except ε Ordering))
      (x'.run fun a b => (.ok (cmp a b) : Except ε Ordering)) := by
  obtain ⟨_, rfl, himage⟩ := hx.returns h
  refine ⟨result, calls.toArray, h.run, ?_, fun call hcall => hcalls call (List.mem_toArray.1 hcall)⟩
  rw [himage.run, List.map_toArray]
  rfl

/-- What is done with the results does not matter, if it is the image of one another. -/
theorem ComparesPlaces.map {δ δ' : Type} {image : γ → γ'} {image' : δ → δ'}
    {places : Except (Failure ε) (Report (Fin xs.size) γ)}
    {elements : Except (Failure ε) (Report α γ')} (h : ComparesPlaces xs w image places elements)
    (k : γ → δ) (k' : γ' → δ') (hk : ∀ c, k' (image c) = image' (k c)) :
    ComparesPlaces xs w image' (places.map fun r => (⟨k r.result, r.calls⟩ : Report _ δ))
      (elements.map fun r => (⟨k' r.result, r.calls⟩ : Report α δ')) := by
  obtain ⟨result, calls, rfl, rfl, hcalls⟩ := h
  exact ⟨k result, calls, rfl, by rw [← hk]; rfl, hcalls⟩

/-- **The sort of a window** is the image of the sort of its positions. -/
theorem sortWith_comparesPlaces (cmp : α → α → Ordering) (tuning : Tuning)
    (hw : w.check xs.size = .ok ()) (hsize : xs.size < 2 ^ 64) :
    ComparesPlaces xs w (Array.map (xs[·]))
      (sortWith tuning (fun i j => (.ok (cmp xs[i] xs[j]) : Except ε Ordering))
        (Array.finRange xs.size) w)
      (sortWith tuning (fun a b => (.ok (cmp a b) : Except ε Ordering)) xs w) := by
  have hlt : (places xs.size w).size < 2 ^ 64 :=
    size_extract_lt (by rwa [Array.size_finRange]) w.start w.stop
  obtain ⟨moved, calls, hreturns, -⟩ :=
    exists_returns (fun i j : Fin xs.size => cmp xs[i] xs[j]) tuning hlt
  have himages := images_ofWindow (f := (xs[·])) .depthFirst tuning (places xs.size w)
  rw [map_places] at himages
  have hruns := comparesPlaces_of_returns (ε := ε) himages hreturns
    ((ofWindow_distinct tuning hlt (tokens_places xs.size w)).asks_of_returns
      (fun _ _ _ => trivial) hreturns)
  rw [sortWith_eq tuning _ hw, sortWith_eq tuning _ (by rwa [Array.size_finRange])]
  refine hruns.map (fun ys => overwrite (Array.finRange xs.size) w.start ys.toList)
    (fun ys => overwrite xs w.start ys.toList) fun ys => ?_
  rw [Array.toList_map, ← overwrite_map, map_finRange]

/-- **The tasks of a sort** under any policy do with the elements what they do with the positions. -/
theorem runTasks_comparesPlaces {g : Nat} (hg : 0 < g) (cmp : α → α → Ordering) (policy : Policy)
    (hstop : w.stop ≤ xs.size) (hsize : xs.size < 2 ^ 64) :
    ComparesPlaces xs w (fun out => ((), out.2.image (xs[·])))
      (((runTasks g policy (w.stop - w.start)).run
        (Store.start (places xs.size w) (places xs.size w))).run
          fun i j => (.ok (cmp xs[i] xs[j]) : Except ε Ordering))
      (((runTasks g policy (w.stop - w.start)).run
        (Store.start (xs.extract w.start w.stop) (xs.extract w.start w.stop))).run
          fun a b => (.ok (cmp a b) : Except ε Ordering)) := by
  have hlt : (places xs.size w).size < 2 ^ 64 :=
    size_extract_lt (by rwa [Array.size_finRange]) w.start w.stop
  obtain ⟨ys, calls, hys, -⟩ := (sortQuarters_perm hg (places xs.size w).toList).returns
    (f := fun i j => cmp xs[i] xs[j]) fun _ _ _ => trivial
  have hdistinct := (sortQuarters_distinct hg (tokens_places xs.size w)).asks_of_returns
    (fun _ _ _ => trivial) hys
  obtain ⟨s, T, K, waiting, duties, made, hreturns, h⟩ :=
    exists_end (ι := Unit) hlt (fun _ => rfl) hys policy
  rw [size_places hstop] at hreturns
  rw [← map_places]
  refine comparesPlaces_of_returns ((images_runTasks g policy _ _).mono ?_) (hreturns ()) ?_
  · rintro ⟨_, s⟩ ⟨_, _⟩ ⟨_, rfl⟩
    rfl
  · intro call hcall
    -- the comparisons are those of the recursive sort, in some order
    refine hdistinct call ?_
    rw [← Multiset.mem_coe, ← (h ()).calls_eq]
    exact hcall

/-- **No element is ever compared with itself.** The positions of the array are sorted by the
comparator that looks at the elements there, and the sort of the elements is the image of this one:
the same moves, and comparisons of the elements at the same positions. Of each comparison the two
positions are different and inside the window; so it is also with the tasks of a sort that is cut,
under every policy. -/
theorem sort_compares_two_places (cmp : α → α → Ordering) (tuning : Tuning) (xs : Array α)
    (w : Window) (hstart : w.start ≤ w.stop) (hstop : w.stop ≤ xs.size) (hsize : xs.size < 2 ^ 64) :
    ComparesPlaces xs w (Array.map (xs[·]))
      (sortWith tuning (fun i j => (.ok (cmp xs[i] xs[j]) : Except ε Ordering))
        (Array.finRange xs.size) w)
      (sortWith tuning (fun a b => (.ok (cmp a b) : Except ε Ordering)) xs w) ∧
    ∀ g, tuning.sortGranularity? (w.stop - w.start) = some g → ∀ policy,
      ComparesPlaces xs w (fun out => ((), out.2.image (xs[·])))
        (((runTasks g policy (w.stop - w.start)).run
          (Store.start (places xs.size w) (places xs.size w))).run
            fun i j => (.ok (cmp xs[i] xs[j]) : Except ε Ordering))
        (((runTasks g policy (w.stop - w.start)).run
          (Store.start (xs.extract w.start w.stop) (xs.extract w.start w.stop))).run
            fun a b => (.ok (cmp a b) : Except ε Ordering)) :=
  ⟨sortWith_comparesPlaces cmp tuning (Window.check_eq_ok_iff.2 ⟨hstart, hstop⟩) hsize,
    fun _ hg policy =>
      runTasks_comparesPlaces (Tuning.sortGranularity?_pos hg) cmp policy hstop hsize⟩

/-- Equal elements, and a comparator that takes each for greater than itself. -/
theorem sort_compares_two_places_fives : 1 ≤ 4 ∧ 4 ≤ #[5, 1, 5, 5].size ∧
    #[5, 1, 5, 5].size < 2 ^ 64 ∧
    ComparesPlaces #[5, 1, 5, 5] ⟨1, 4⟩ (Array.map (#[5, 1, 5, 5][·]))
      (sortWith ⟨{ val := 2 }, { val := 1 }, { val := 1 }⟩
        (fun i j => (.ok (if #[5, 1, 5, 5][j] ≤ #[5, 1, 5, 5][i] then .gt else .lt) :
          Except String Ordering)) (Array.finRange 4) ⟨1, 4⟩)
      (sortWith ⟨{ val := 2 }, { val := 1 }, { val := 1 }⟩
        (fun a b => (.ok (if b ≤ a then .gt else .lt) : Except String Ordering)) #[5, 1, 5, 5]
        ⟨1, 4⟩) ∧
    ∀ policy, ComparesPlaces #[5, 1, 5, 5] ⟨1, 4⟩ (fun out => ((), out.2.image (#[5, 1, 5, 5][·])))
      (((runTasks 1 policy 3).run (Store.start (places 4 ⟨1, 4⟩) (places 4 ⟨1, 4⟩))).run
        fun i j => (.ok (if #[5, 1, 5, 5][j] ≤ #[5, 1, 5, 5][i] then .gt else .lt) :
          Except String Ordering))
      (((runTasks 1 policy 3).run (Store.start #[1, 5, 5] #[1, 5, 5])).run
        fun a b => (.ok (if b ≤ a then .gt else .lt) : Except String Ordering)) := by
  have hboth := sort_compares_two_places (ε := String) (fun a b : Nat => if b ≤ a then .gt else .lt)
    ⟨{ val := 2 }, { val := 1 }, { val := 1 }⟩ #[5, 1, 5, 5] ⟨1, 4⟩ (by decide) (by decide)
    (by decide)
  exact ⟨by decide, by decide, by decide, hboth.1, hboth.2 1 rfl⟩

end ForkJoin.Sorting

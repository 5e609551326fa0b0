import ForkJoin.Proofs.Images
import ForkJoin.Sort

/-!
# A sort of images is the image of the sort

Elements are compared, held and copied between the two buffers, but nothing else is done with them.
So each piece of a sort, with buffers that hold the images of some tokens, does what it does with the
tokens, and this is kept by sequences: `images_runTasks` is about all tasks under any policy. The
latches, the log and the places of the cuts are the same.
-/
namespace ForkJoin.Sorting

open Calling

variable {α α' β γ γ' δ δ' : Type} {f : α → α'}

/-- The second list has the images of the first one. -/
abbrev Mapped (f : α → α') (xs : List α) (xs' : List α') : Prop := xs' = xs.map f

/-! ## Insertion and merging -/

theorem images_insert (item : α) (ys : List α) :
    Images f (Mapped f) (insert item ys) (insert (f item) (ys.map f)) := by
  induction ys with
  | nil => exact .done rfl
  | cons y ys ih =>
    refine .call fun o => ?_
    split
    · exact ih.map fun zs zs' hzs => by rw [hzs]; rfl
    · exact .done rfl

theorem images_insertAll (sorted xs : List α) :
    Images f (Mapped f) (insertAll sorted xs) (insertAll (sorted.map f) (xs.map f)) := by
  induction xs generalizing sorted with
  | nil => exact .done List.map_reverse.symm
  | cons x xs ih =>
    refine (images_insert x sorted).bind ?_
    rintro zs _ rfl
    exact ih zs

theorem images_mergeInto (out left right : List α) :
    Images f (Mapped f) (mergeInto out left right)
      (mergeInto (out.map f) (left.map f) (right.map f)) := by
  fun_induction mergeInto out left right with
  | case1 out right =>
    rw [List.map_nil, mergeInto]
    exact .done (by simp [Mapped])
  | case2 out left hleft =>
    cases left with
    | nil => exact absurd rfl hleft
    | cons x xs =>
      rw [List.map_nil, List.map_cons, mergeInto]
      · exact .done (by simp [Mapped])
      · simp
  | case3 out x xs y ys ihr ihl =>
    rw [List.map_cons, List.map_cons, mergeInto]
    refine .call fun o => ?_
    split
    · exact ihr
    · exact ihl

theorem images_mergeSort (xs scratch : List α) :
    Images f (fun out out' => out' = (out.1.map f, out.2.map f)) (mergeSort xs scratch)
      (mergeSort (xs.map f) (scratch.map f)) := by
  induction hlen : xs.length using Nat.strongRecOn generalizing xs scratch with
  | ind len ih =>
    subst hlen
    rw [mergeSort, mergeSort]
    simp only [List.length_map]
    by_cases hshort : xs.length ≤ insertionLimit
    · rw [dif_pos hshort, dif_pos hshort]
      exact (images_insertAll [] xs).map fun zs zs' hzs => by rw [hzs]
    · have hlong : 16 < xs.length := Nat.lt_of_not_le hshort
      rw [dif_neg hshort, dif_neg hshort]
      by_cases hscratch : scratch.length < xs.length
      · rw [if_pos hscratch, if_pos hscratch]
        exact .fault _
      · rw [if_neg hscratch, if_neg hscratch]
        simp only [← List.map_take, ← List.map_drop]
        refine (ih _ ?_ _ _ rfl).bind ?_
        · rw [List.length_take]
          omega
        rintro ⟨left, scratchLeft⟩ _ rfl
        refine (ih _ ?_ _ _ rfl).bind ?_
        · rw [List.length_drop]
          omega
        rintro ⟨right, scratchRight⟩ _ rfl
        simp only [List.getLast?_map, List.head?_map]
        cases left.getLast? with
        | none => exact .fault _
        | some a =>
          cases right.head? with
          | none => exact .fault _
          | some b =>
            refine (Images.ask a b).bind ?_
            rintro o _ rfl
            split
            · refine (images_mergeInto [] left right).bind ?_
              rintro merged _ rfl
              exact .done (by simp)
            · exact .done (by simp)

/-! ## Cutting -/

theorem images_halve {probe : Nat → Calling α β Bool} {probe' : Nat → Calling α' β Bool}
    (hp : ∀ i, Images f Eq (probe i) (probe' i)) (base size : Nat) (h : 0 < size) :
    Images f Eq (halve probe base size h) (halve probe' base size h) := by
  induction size using Nat.strongRecOn generalizing base with
  | ind size ih =>
    rw [halve, halve]
    by_cases hs : size ≤ 1
    · rw [dif_pos hs, dif_pos hs]
      exact .done rfl
    · rw [dif_neg hs, dif_neg hs]
      refine (hp _).bind ?_
      rintro up _ rfl
      have hrest := ih (size - size / 2) (by omega)
      cases up with
      | true =>
        refine (hrest (base + size / 2) (by omega)).bind ?_
        rintro k _ rfl
        exact .done rfl
      | false =>
        refine (hrest base (by omega)).bind ?_
        rintro k _ rfl
        exact .done rfl

theorem images_partitionPoint {probe : Nat → Calling α β Bool} {probe' : Nat → Calling α' β Bool}
    (hp : ∀ i, Images f Eq (probe i) (probe' i)) (n : Nat) :
    Images f Eq (partitionPoint probe n) (partitionPoint probe' n) := by
  rw [partitionPoint, partitionPoint]
  by_cases hn : n = 0
  · rw [dif_pos hn, dif_pos hn]
    exact .done rfl
  · rw [dif_neg hn, dif_neg hn]
    refine (images_halve hp 0 n (by omega)).bind ?_
    rintro ⟨k, hk⟩ _ rfl
    refine (hp k).bind ?_
    rintro up _ rfl
    cases up <;> exact .done rfl

theorem images_compareAt (item : α) (run : Array α) (i : Nat) :
    Images f Eq (compareAt item run i) (compareAt (f item) (run.map f) i) := by
  rw [compareAt, compareAt, Array.getElem?_map]
  cases run[i]? with
  | none => exact .fault _
  | some x => exact .ask item x

/-- What a probe answers is read off a comparison. -/
theorem images_probe (item : α) (run : Array α) (n : Nat) (read : Ordering → Bool) :
    Images f Eq (partitionPoint (fun i => read <$> compareAt item run i) n)
      (partitionPoint (fun i => read <$> compareAt (f item) (run.map f) i) n) :=
  images_partitionPoint (fun i => (images_compareAt item run i).map fun _ _ ho => congrArg read ho) n

/-- The runs are cut at the same place. -/
theorem images_cut? (granularity : Nat) (left right : Array α) (ln rn : Nat) :
    Images f Eq (cut? granularity left right ln rn)
      (cut? granularity (left.map f) (right.map f) ln rn) := by
  rw [cut?, cut?]
  by_cases hlr : rn ≤ ln
  · rw [if_pos hlr, if_pos hlr]
    by_cases hg : ln ≤ granularity
    · rw [dif_pos hg, dif_pos hg]
      exact .done rfl
    · rw [dif_neg hg, dif_neg hg, Array.getElem?_map]
      cases left[ln / 2]? with
      | none => exact .fault _
      | some item =>
        refine (images_probe item right rn (· == .gt)).bind ?_
        rintro ⟨k, hk⟩ _ rfl
        exact .done rfl
  · rw [if_neg hlr, if_neg hlr]
    by_cases hg : rn ≤ granularity
    · rw [dif_pos hg, dif_pos hg]
      exact .done rfl
    · rw [dif_neg hg, dif_neg hg, Array.getElem?_map]
      cases right[rn / 2]? with
      | none => exact .fault _
      | some item =>
        refine (images_probe item left ln (· != .lt)).bind ?_
        rintro ⟨k, hk⟩ _ rfl
        exact .done rfl

/-! ## Actions on the buffers -/

/-- The buffers hold the images; all else is the same. -/
def Store.image (f : α → α') (s : Store α) : Store α' where
  array := s.array.map f
  workspace := s.workspace.map f
  pending := s.pending
  completed := s.completed
  log := s.log

theorem Store.buffer_image (f : α → α') (s : Store α) (b : Buffer) :
    (s.image f).buffer b = (s.buffer b).map f := by
  cases b <;> rfl

theorem overwrite_map (xs : Array α) (i : Nat) (ys : List α) :
    overwrite (xs.map f) i (ys.map f) = (overwrite xs i ys).map f := by
  induction ys generalizing xs i with
  | nil => rfl
  | cons y ys ih =>
    rw [List.map_cons, overwrite, overwrite, ← ih, Array.map_setIfInBounds]

namespace Access

/-- From a state with the images, the second action does what the first one does. -/
def Images (f : α → α') (R : γ → γ' → Prop) (x : Access α γ) (x' : Access α' γ') : Prop :=
  ∀ s : Store α, Calling.Images f (fun out out' => R out.1 out'.1 ∧ out'.2 = out.2.image f)
    (x.run s) (x'.run (s.image f))

namespace Images

variable {R : γ → γ' → Prop} {S : δ → δ' → Prop} {x : Access α γ} {x' : Access α' γ'}

theorem pure {c : γ} {c' : γ'} (h : R c c') : Images f R (Pure.pure c) (Pure.pure c') :=
  fun _ => .done ⟨h, rfl⟩

theorem bind {k : γ → Access α δ} {k' : γ' → Access α' δ'} (h : Images f R x x')
    (hk : ∀ c c', R c c' → Images f S (k c) (k' c')) : Images f S (x >>= k) (x' >>= k') := by
  intro s
  rw [StateT.run_bind, StateT.run_bind]
  refine (h s).bind ?_
  rintro ⟨c, s₁⟩ ⟨c', _⟩ ⟨hR, rfl⟩
  exact hk c c' hR s₁

theorem fail (why : Fault) : Images f R (Action.fail why) (Action.fail why) := fun _ => .fault why

theorem ofCalling {y : Calling α Ordering γ} {y' : Calling α' Ordering γ'}
    (h : Calling.Images f R y y') : Images f R (Action.ofCalling y) (Action.ofCalling y') :=
  fun _ => h.bind fun _ _ hR => .done ⟨hR, rfl⟩

theorem get_completed : Images f (fun s s' => s'.completed = s.completed) get get :=
  fun _ => .done ⟨rfl, rfl⟩

theorem note (e : Event) : Images f Eq (Access.note e) (Access.note e) :=
  fun _ => .done ⟨rfl, rfl⟩

theorem announce : Images f Eq Access.announce Access.announce := fun _ => .done ⟨rfl, rfl⟩

theorem openLatch (pending : UInt32) (latch : Nat → Latch) :
    Images f Eq (Access.openLatch pending latch) (Access.openLatch pending latch) :=
  fun _ => .done ⟨rfl, rfl⟩

theorem raise (latch : Latch) : Images f Eq (Access.raise latch) (Access.raise latch) := by
  intro s
  unfold Access.raise
  simp only [StateT.run, Store.image]
  cases s.pending[latch.id]? with
  | none => exact .fault _
  | some p => exact .done ⟨trivial, rfl⟩

theorem arrive (latch : Latch) : Images f Eq (Access.arrive latch) (Access.arrive latch) := by
  intro s
  simp only [Access.arrive, StateT.run, Store.image]
  cases s.pending[latch.id]? with
  | none => exact .fault _
  | some p => exact .done ⟨rfl, rfl⟩

theorem openPart (whole : Latch) : Images f Eq (Access.openPart whole) (Access.openPart whole) :=
  openLatch 0 _

theorem openTrigger (merge : Merge) (whole : Latch) :
    Images f Eq (Access.openTrigger merge whole) (Access.openTrigger merge whole) := by
  refine (openPart whole).bind ?_
  rintro next _ rfl
  exact openLatch 1 _

theorem read (b : Buffer) (span : Span) :
    Images f (fun xs xs' => xs' = xs.map f) (Access.read b span) (Access.read b span) := by
  intro s
  simp only [Access.read, StateT.run, Store.buffer_image, Span.read?, Array.size_map]
  by_cases hspan : span.stop ≤ (s.buffer b).size
  · rw [if_pos hspan, if_pos hspan]
    exact .done ⟨Array.map_extract.symm, rfl⟩
  · rw [if_neg hspan, if_neg hspan]
    exact .fault _

theorem write (b : Buffer) (span : Span) (xs : List α) :
    Images f Eq (Access.write b span xs) (Access.write b span (xs.map f)) := by
  intro s
  simp only [Access.write, StateT.run, Store.buffer_image, Array.size_map, List.length_map]
  split
  · cases b with
    | array => exact .done ⟨trivial, by simp [Store.image, overwrite_map]⟩
    | workspace => exact .done ⟨trivial, by simp [Store.image, overwrite_map]⟩
  · exact .fault _

end Images

end Access

/-! ## Tasks -/

namespace Task

variable (granularity : Nat)

theorem images_forkTails (latch : Latch) (m : Merge) (left right : Array α) (ln rn : Nat)
    (forked : List Task) :
    Access.Images f Eq (forkTails granularity latch m left right ln rn forked)
      (forkTails granularity latch m (left.map f) (right.map f) ln rn forked) := by
  induction hlen : ln + rn using Nat.strongRecOn generalizing ln rn forked with
  | ind len ih =>
    rw [forkTails, forkTails]
    refine (Access.Images.ofCalling (images_cut? granularity left right ln rn)).bind ?_
    rintro (_ | c) _ rfl
    · exact .pure rfl
    · refine (Access.Images.note _).bind fun _ _ _ => ?_
      refine (Access.Images.raise latch).bind fun _ _ _ => ?_
      refine (Access.Images.openPart latch).bind ?_
      rintro part _ rfl
      exact ih _ (by have := c.shrinks; omega) _ _ _ rfl

theorem images_mergeHead (latch : Latch) (m : Merge) :
    Access.Images f Eq (mergeHead granularity latch m) (mergeHead granularity latch m) := by
  rw [mergeHead, mergeHead]
  refine (Access.Images.read _ _).bind ?_
  rintro left _ rfl
  refine (Access.Images.read _ _).bind ?_
  rintro right _ rfl
  refine (images_forkTails granularity latch m left right _ _ _).bind ?_
  rintro ⟨ln, rn, forked⟩ _ rfl
  simp only [Array.toList_map, ← List.map_take]
  refine (Access.Images.ofCalling (images_mergeInto [] _ _)).bind ?_
  rintro merged _ rfl
  refine (Access.Images.write _ _ _).bind fun _ _ _ => ?_
  refine (Access.Images.note _).bind fun _ _ _ => ?_
  exact .pure rfl

theorem images_report (latch : Latch) :
    Access.Images f Eq (report granularity latch) (report granularity latch) := by
  induction latch with
  | root id =>
    rw [report, report]
    refine (Access.Images.arrive _).bind ?_
    rintro last _ rfl
    cases last with
    | true => exact Access.Images.announce.bind fun _ _ _ => .pure rfl
    | false => exact .pure rfl
  | part id whole ih =>
    rw [report, report]
    refine (Access.Images.arrive _).bind ?_
    rintro last _ rfl
    cases last with
    | true => exact ih
    | false => exact .pure rfl
  | trigger id m next ih =>
    rw [report, report]
    refine (Access.Images.arrive _).bind ?_
    rintro last _ rfl
    cases last with
    | true =>
      refine (images_mergeHead granularity next m).bind ?_
      rintro forked _ rfl
      refine ih.bind ?_
      rintro later _ rfl
      exact .pure rfl
    | false => exact .pure rfl

theorem images_forkQuarters (latch : Latch) (start len scratch : Nat) (forked : List Task) :
    Access.Images f Eq (forkQuarters granularity latch start len scratch forked)
      (forkQuarters granularity latch start len scratch forked) := by
  induction len using Nat.strongRecOn generalizing latch start scratch forked with
  | ind len ih =>
    rw [forkQuarters, forkQuarters]
    by_cases hlong : granularity < len
    · rw [if_pos hlong, if_pos hlong]
      refine (Access.Images.openTrigger _ _).bind ?_
      rintro back _ rfl
      refine (Access.Images.openTrigger _ _).bind ?_
      rintro upper _ rfl
      refine (Access.Images.openPart _).bind ?_
      rintro fourth _ rfl
      refine (Access.Images.openPart _).bind ?_
      rintro third _ rfl
      refine (Access.Images.openTrigger _ _).bind ?_
      rintro lower _ rfl
      refine (Access.Images.openPart _).bind ?_
      rintro second _ rfl
      refine (Access.Images.openPart _).bind ?_
      rintro first _ rfl
      exact ih _ (by omega) _ _ _ _
    · rw [if_neg hlong, if_neg hlong]
      exact .pure rfl

theorem images_sortFirst (latch : Latch) (span : Span) (scratch : Nat) :
    Access.Images f Eq (sortFirst granularity latch span scratch)
      (sortFirst granularity latch span scratch) := by
  rw [sortFirst, sortFirst]
  refine (images_forkQuarters granularity _ _ _ _ _).bind ?_
  rintro ⟨first, len, forked⟩ _ rfl
  refine (Access.Images.read _ _).bind ?_
  rintro xs _ rfl
  refine (Access.Images.read _ _).bind ?_
  rintro ws _ rfl
  rw [Array.toList_map, Array.toList_map]
  refine (Access.Images.ofCalling (images_mergeSort _ _)).bind ?_
  rintro ⟨sorted, left⟩ _ rfl
  refine (Access.Images.write _ _ _).bind fun _ _ _ => ?_
  refine (Access.Images.write _ _ _).bind fun _ _ _ => ?_
  refine (Access.Images.note _).bind fun _ _ _ => ?_
  exact .pure rfl

theorem images_run (task : Task) :
    Access.Images f Eq (run granularity task) (run granularity task) := by
  cases task with
  | sort latch span scratch =>
    refine (images_sortFirst granularity _ _ _).bind ?_
    rintro ⟨first, forked⟩ _ rfl
    refine (images_report granularity _).bind ?_
    rintro later _ rfl
    exact .pure rfl
  | merge latch m =>
    refine (images_mergeHead granularity _ _).bind ?_
    rintro forked _ rfl
    refine (images_report granularity _).bind ?_
    rintro later _ rfl
    exact .pure rfl

end Task

/-! ## Runs -/

theorem images_steps (granularity : Nat) (policy : Policy) (k : Nat) (pool : List Task) :
    Access.Images f Eq (Work.steps (Task.run granularity) policy k pool)
      (Work.steps (Task.run granularity) policy k pool) := by
  induction k generalizing pool with
  | zero => exact .pure rfl
  | succ k ih =>
    rw [Work.steps, Work.steps]
    cases pool.drop (policy k % pool.length) with
    | nil => exact .pure rfl
    | cons task later =>
      refine (Task.images_run granularity task).bind ?_
      rintro left _ rfl
      exact ih _

/-- **Under every policy the tasks do with the images what they do with the tokens.** -/
theorem images_runTasks (granularity : Nat) (policy : Policy) (len : Nat) :
    Access.Images f Eq (runTasks granularity policy len) (runTasks granularity policy len) := by
  rw [runTasks, runTasks]
  refine Access.Images.bind (R := Eq) ?_ fun _ _ _ => ?_
  · refine (images_steps granularity policy _ _).bind ?_
    rintro left _ rfl
    split
    · exact .pure rfl
    · exact .fail _
  · refine Access.Images.get_completed.bind ?_
    rintro s s' hs
    rw [hs]
    split
    · exact .pure rfl
    · exact .fail _

theorem images_sortArray (policy : Policy) (granularity? : Option Nat) (xs : Array α) :
    Images f (fun ys ys' => ys' = ys.map f) (sortArrayUnder policy granularity? xs)
      (sortArrayUnder policy granularity? (xs.map f)) := by
  cases granularity? with
  | none =>
    rw [sortArrayUnder, sortArrayUnder, Array.toList_map]
    refine (images_mergeSort _ _).bind ?_
    rintro ⟨sorted, left⟩ _ rfl
    exact .done (by simp)
  | some g =>
    rw [sortArrayUnder, sortArrayUnder, Array.size_map]
    refine (images_runTasks g policy xs.size (Store.start xs xs)).bind ?_
    rintro ⟨_, s⟩ ⟨_, _⟩ ⟨_, rfl⟩
    exact .done rfl

theorem images_ofWindow (policy : Policy) (tuning : Tuning) (xs : Array α) :
    Images f (fun ys ys' => ys' = ys.map f) (ofWindowUnder policy tuning xs)
      (ofWindowUnder policy tuning (xs.map f)) := by
  rw [ofWindowUnder, ofWindowUnder, Array.size_map]
  exact images_sortArray policy _ xs

end ForkJoin.Sorting

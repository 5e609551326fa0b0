import ForkJoin.Proofs.Scan.BothPasses
import ForkJoin.Scan

/-!
# A scan by a single worker is the recursive scan

The visits of a scan, run one after the other by a single worker, make the same calls in the same
order as `scanAll` and leave the same elements, whatever the operator answers. They come to an end
within the budget, announce it, and never find a slot empty.
-/
namespace ForkJoin.Scan

open Calling Work Store Visit

variable {α : Type} {plan : Plan}

/-- **Both passes over the whole window.** -/
theorem follows_scanAll (hT : plan.IsTree) {t K : Nat} {n : Node} {s : Store α}
    (hn : plan.nodes[t]? = some n) (hroot : n.parent = none) (hs : s.Fits plan)
    (hstart : n.span.start = 0) (hlast : plan.isLast n.span = true) (hfresh : Fresh plan s n.span)
    (hK : 18 * Layout.count plan.threshold hT.pos n.span.len ≤ K) :
    Follows (fun ys y => ∃ s', y = .done ([], s') ∧ s'.completed = true ∧
        s'.cells.size = s.cells.size ∧ s'.segment n.span = ys)
      (alone (step plan) K [enter t] s) (scanAll plan.threshold hT.pos (s.segment n.span)) := by
  have hself := hfresh t n hn (Span.Inside.refl _)
  by_cases hlt : plan.threshold < n.span.len
  · obtain ⟨l, nl, r, nr, H⟩ := hT.exists_halves hn hlt
    have hl0 := Layout.count_pos hT.pos nl.span.len
    have hr0 := Layout.count_pos hT.pos nr.span.len
    rw [H.count hT.pos] at hK
    rw [scanAll, if_pos (by rwa [hT.length_segment hs hn]), ← H.segment_left hT hs,
      ← H.segment_right hT hs]
    refine follows_silent (by omega) (step_enter_split hn hlt H.children hself) ?_
    refine (follows_scanFirst hT (k := 16 + 18 * Layout.count plan.threshold hT.pos nr.span.len)
      (K := K - 1) H.left H.left_parent hn (H.not_inside_left hT) hs (H.start_left.trans hstart)
      (H.left_not_last hT) (hfresh.mono H.left_inside) hself (by omega)).bind ?_
    rintro ⟨left, x⟩ _ ⟨k₁, s₁, hk₁, rfl, hl⟩
    have hsegr : s.segment nr.span = s₁.segment nr.span :=
      (hl.frame.segment_eq (.inr (Nat.le_of_eq H.meet))).symm
    rw [hsegr]
    refine follows_rightLast hT hs H hl hstart hlast hfresh
      (k := 11 + 10 * Layout.count plan.threshold hT.pos nr.span.len) (K := k₁)
      (by omega) fun right k₂ s₂ hk₂ hhalf hframe => ?_
    -- there is no parent to report to
    refine follows_silent (by omega) (step_climb_root hn hroot) ?_
    refine (follows_rightDown hT (k := 1) (K := k₂ - 1) (hframe.fits hs) H hhalf hstart
      (by omega)).bind ?_
    rintro ys _ ⟨k₄, s₄, hk₄, rfl, hpassed, _⟩
    refine follows_silent (by omega) (step_climb_root hn hroot) (.done ?_)
    exact ⟨s₄.withEnd, alone_nil _ _, rfl, (hframe.trans hpassed.frame).size, hpassed.segment⟩
  · rw [scanAll, if_neg (by rwa [hT.length_segment hs hn]), ← Calling.bind_done (Scan.sweep _ _)]
    rw [Layout.count_of_le hT.pos (Nat.le_of_not_lt hlt)] at hK
    refine follows_firstLeaf hT hn hs hstart (Nat.le_of_not_lt hlt) hself (by omega)
      fun ys s₁ _ hpassed _ _ => ?_
    refine follows_silent (by omega) (step_climb_root hn hroot) (.done ?_)
    exact ⟨_, alone_nil _ _, rfl, hpassed.frame.size, hpassed.segment⟩

/-! ## The start -/

theorem fits_start (plan : Plan) (xs : Array α) (h : xs.size = plan.len) :
    (Store.start plan xs).Fits plan :=
  ⟨h, Array.size_replicate, Array.size_replicate, Array.size_replicate⟩

theorem fresh_start (plan : Plan) (xs : Array α) (span : Span) :
    Fresh plan (Store.start plan xs) span := by
  intro u n hn _
  have hu := (Array.getElem?_eq_some_iff.1 hn).1
  rw [Store.start, Array.getElem?_eq_getElem (by rw [Array.size_replicate]; exact hu),
    Array.getElem_replicate]

theorem isTree_ofLength {threshold : Nat} (ht : 0 < threshold) {len : Nat} (hlen : 0 < len) :
    (Plan.ofLength threshold ht len).IsTree :=
  ⟨ht, Layout.grownTo_grow ht hlen⟩

/-- **A scan by a single worker is the recursive scan.** -/
theorem scanArray_eq (threshold : Nat) (ht : 0 < threshold) (xs : Array α) :
    scanArray threshold ht xs = List.toArray <$> scanAll threshold ht xs.toList := by
  by_cases hxs : xs.size = 0
  · obtain rfl := Array.eq_empty_of_size_eq_zero hxs
    rw [scanAll, if_neg (by simp)]
    rfl
  · have hlen : 0 < xs.size := Nat.pos_of_ne_zero hxs
    have hT := isTree_ofLength ht hlen
    obtain ⟨n, hn, hspan, hroot⟩ := hT.grown.root
    have hspan' : n.span = ⟨0, xs.size⟩ := hspan
    have hseg : (Store.start (Plan.ofLength threshold ht xs.size) xs).segment n.span =
        xs.toList := by
      simp [Store.segment, Store.start, hspan', Span.stop]
    have hcount : (Plan.ofLength threshold ht xs.size).nodes.size =
        Layout.count threshold ht xs.size := Layout.size_grow ht xs.size
    have hbudget : 18 * Layout.count threshold ht xs.size ≤
        (Plan.ofLength threshold ht xs.size).budget := by
      have hsq := Nat.le_mul_self (Layout.count threshold ht xs.size + 1)
      rw [Plan.budget, hcount]
      omega
    have hfollows := follows_scanAll hT (K := (Plan.ofLength threshold ht xs.size).budget) hn hroot
      (fits_start _ xs rfl) (by rw [hspan'])
      (by simp [Plan.isLast, hspan', Span.stop, Plan.ofLength]) (fresh_start _ xs _)
      (by rwa [hspan'])
    rw [hseg] at hfollows
    rw [scanArray, scanArrayUnder, if_neg (by simpa using hxs), ← bind_pure_comp]
    apply Follows.eq
    simp only [Plan.run, Work.drain, StateT.run_bind, Calling.bind_bind]
    refine Follows.seq (R := fun end_ ys => end_.1 = [] ∧ end_.2.completed = true ∧
      end_.2.cells.toList = ys) (hfollows.mono ?_) ?_
    · rintro ys _ ⟨s', rfl, hend, hsize, hys⟩
      have hall : s'.cells.size = xs.size := hsize
      refine ⟨_, rfl, rfl, hend, ?_⟩
      rw [← hys, Store.segment, hspan', Span.stop, Nat.zero_add, ← hall, Array.extract_size]
    · rintro ⟨_, s'⟩ _ ⟨rfl, hend, rfl⟩
      have hend' : s'.completed = true := hend
      simp only [List.isEmpty_nil, if_true, StateT.run_pure, Calling.pure_eq, Calling.done_bind,
        StateT.run_get, hend']
      exact .done rfl

end ForkJoin.Scan

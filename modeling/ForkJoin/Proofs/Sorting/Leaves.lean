import ForkJoin.Proofs.Sorting.Merging

/-!
# The sort of one worker, with its scratch area and without

The scratch area of a merge sort is written before it is read, so what is in it does not matter.
-/
namespace ForkJoin.Sorting

open Calling Work Access

variable {α : Type}

/-- A merge sort with a scratch area that is long enough follows the sort without one. -/
theorem follows_mergeSort {xs scratch : List α} (h : xs.length ≤ scratch.length) :
    Follows (Follows.Ends fun out ys => out.1 = ys ∧ out.1.length = xs.length ∧
      out.2.length = scratch.length) (mergeSort xs scratch) (sortShort xs) := by
  induction hlen : xs.length using Nat.strongRecOn generalizing xs scratch with
  | ind len ih =>
    subst hlen
    rw [mergeSort, sortShort]
    by_cases hshort : xs.length ≤ insertionLimit
    · rw [dif_pos hshort, dif_pos hshort, ← bind_pure_comp, ← Calling.bind_done (insertionSort xs),
        Calling.bind_bind]
      refine (insertionSort_perm xs).follows.seq ?_
      rintro ys _ ⟨rfl, hperm⟩
      exact .done ⟨_, rfl, rfl, hperm.length_eq, rfl⟩
    · have hlong : 16 < xs.length := Nat.lt_of_not_le hshort
      rw [dif_neg hshort, dif_neg hshort, if_neg (Nat.not_lt.2 h)]
      refine (ih _ ?_ ?_ rfl).seq ?_
      · rw [List.length_take]
        omega
      · rw [List.length_take, List.length_take]
        omega
      rintro ⟨left, scratchLeft⟩ _ ⟨rfl, hleft, hscratchLeft⟩
      refine (ih _ ?_ ?_ rfl).seq ?_
      · rw [List.length_drop]
        omega
      · rw [List.length_drop, List.length_drop]
        omega
      rintro ⟨right, scratchRight⟩ _ ⟨rfl, hright, hscratchRight⟩
      simp only [List.length_take, List.length_drop] at hleft hright hscratchLeft hscratchRight
      have hl : left ≠ [] := by
        rw [← List.length_pos_iff]
        omega
      have hr : right ≠ [] := by
        rw [← List.length_pos_iff]
        omega
      simp only [List.getLast?_eq_some_getLast hl, List.head?_eq_some_head hr, ask_bind]
      refine .call fun o => ?_
      split
      · rw [← Calling.bind_done (Sorting.merge left right), Calling.bind_bind]
        refine (merge_perm left right).follows.seq ?_
        rintro ys _ ⟨rfl, hperm⟩
        refine .done ⟨_, rfl, rfl, ?_, ?_⟩
        · rw [hperm.length_eq, List.length_append]
          omega
        · simp only [List.length_append, List.length_drop]
          omega
      · refine .done ⟨_, rfl, rfl, ?_, ?_⟩
        · rw [List.length_append]
          omega
        · rw [List.length_append]
          omega

/-! ## The leaf of a parallel sort -/

/-- The elements that the sort of `len` elements may change. -/
def sortTouches (start scratch len : Nat) : Buffer → Nat → Prop
  | .array, i => start ≤ i ∧ i < start + len
  | .workspace, i => scratch ≤ i ∧ i < scratch + len

/-- There is room for `len` elements in both buffers, and `len` is a number of 64 bits. -/
structure SortFits (start scratch len : Nat) (s : Store α) : Prop where
  array : start + len ≤ (s.buffer .array).size
  workspace : scratch + len ≤ (s.buffer .workspace).size
  lt : len < 2 ^ 64

/-- The sort of `len` elements has been done, and has left `ys`. -/
structure SortedSpan (start scratch len : Nat) (ys : List α) (s s' : Store α) : Prop where
  frame : Store.Frame (sortTouches start scratch len) s s'
  segment : s'.segment .array ⟨start, len⟩ = ys

variable {start scratch len : Nat} {s s' : Store α} {touched : Buffer → Nat → Prop}

theorem SortFits.frame (h : SortFits start scratch len s) (hs : Store.Frame touched s s') :
    SortFits start scratch len s' :=
  ⟨by rw [hs.size]; exact h.array, by rw [hs.size]; exact h.workspace, h.lt⟩

theorem SortFits.told (h : SortFits start scratch len s) {latch : Latch} {p : UInt32}
    {last : Bool} : SortFits start scratch len (s.told latch p last) :=
  ⟨by rw [Store.buffer_told]; exact h.array, by rw [Store.buffer_told]; exact h.workspace, h.lt⟩

/-- A part of a span fits if the span does. -/
theorem SortFits.part (h : SortFits start scratch len s) {a n : Nat} (hn : a + n ≤ len) :
    SortFits (start + a) (scratch + a) n s := by
  obtain ⟨h₁, h₂, h₃⟩ := h
  constructor <;> omega

theorem SortFits.first (h : SortFits start scratch len s) {n : Nat} (hn : n ≤ len) :
    SortFits start scratch n s := by
  obtain ⟨h₁, h₂, h₃⟩ := h
  constructor <;> omega

theorem sortTouches_first {n : Nat} (hn : n ≤ len) (b : Buffer) (i : Nat)
    (h : sortTouches start scratch n b i) : sortTouches start scratch len b i := by
  cases b <;> simp only [sortTouches] at h ⊢ <;> omega

theorem sortTouches_part {a n : Nat} (hn : a + n ≤ len) (b : Buffer) (i : Nat)
    (h : sortTouches (start + a) (scratch + a) n b i) : sortTouches start scratch len b i := by
  cases b <;> simp only [sortTouches] at h ⊢ <;> omega

/-- The leaf of a sort writes what the sort without a scratch area returns, and to its scratch. -/
theorem follows_sortUncut_put (hfits : SortFits start scratch len s) :
    Follows (Follows.Ends fun out ys => ∃ left : List α, ys.length = len ∧ left.length = len ∧
        out.2 = (s.put .array start ys).put .workspace scratch left)
      ((sortUncut start len scratch).run s) (sortShort (s.segment .array ⟨start, len⟩)) := by
  have ha : Span.stop ⟨start, len⟩ ≤ (s.buffer .array).size := hfits.array
  have hw : Span.stop ⟨scratch, len⟩ ≤ (s.buffer .workspace).size := hfits.workspace
  have hla := Store.length_segment ha
  have hlw := Store.length_segment hw
  simp only [sortUncut, StateT.run_bind, run_read (Span.read?_of_le ha),
    run_read (Span.read?_of_le hw), Calling.done_bind, Action.run_ofCalling, Calling.bind_bind]
  rw [← Calling.bind_done (sortShort _)]
  refine (follows_mergeSort (Nat.le_of_eq (hla.trans hlw.symm))).seq ?_
  rintro ⟨sorted, left⟩ _ ⟨rfl, hsorted, hleft⟩
  have hsorted : sorted.length = len := hsorted.trans hla
  have hleft : left.length = len := hleft.trans hlw
  have hw₁ : Span.stop ⟨scratch, len⟩ ≤ ((s.put .array start sorted).buffer .workspace).size := hw
  dsimp only
  rw [Store.run_write ha hsorted, Calling.done_bind, Store.run_write hw₁ hleft]
  exact .done ⟨_, rfl, left, hsorted, hleft, rfl⟩

theorem follows_sortUncut (hfits : SortFits start scratch len s) :
    Follows (Follows.Ends fun out ys => SortedSpan start scratch len ys s out.2)
      ((sortUncut start len scratch).run s) (sortShort (s.segment .array ⟨start, len⟩)) := by
  refine (follows_sortUncut_put hfits).mono ?_
  rintro sorted _ ⟨⟨_, _⟩, rfl, left, hsorted, hleft, rfl⟩
  have frame₁ : Store.Frame (sortTouches start scratch len) s (s.put .array start sorted) :=
    .put _ _ fun j hj hj' => ⟨hj, by rwa [hsorted] at hj'⟩
  have frame₂ : Store.Frame (sortTouches start scratch len) (s.put .array start sorted)
      ((s.put .array start sorted).put .workspace scratch left) :=
    .put _ _ fun j hj hj' => ⟨hj, by rwa [hleft] at hj'⟩
  refine ⟨_, rfl, frame₁.trans frame₂, ?_⟩
  exact Store.segment_put s .array hsorted hfits.array

end ForkJoin.Sorting

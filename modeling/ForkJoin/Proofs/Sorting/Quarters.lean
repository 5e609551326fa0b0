import ForkJoin.Proofs.Sorting.Leaves

/-!
# A sort by tasks is the sort by quarters

A span that is too long is cut in quarters, over and over for the lowest, and the latches for all
the merges are made before anything is sorted. Then each quarter is sorted and reports, the second
report to a pair of quarters triggers their merge, and the second report of a half the merge of
the halves.
-/
namespace ForkJoin.Sorting

open Calling Work Access

variable {α : Type}

/-! ## Forking -/

/-- The latch that triggers a merge, numbered after the one that the merge reports to. -/
def triggerAt (n : Nat) (m : Merge) (latch : Latch) : Latch := .trigger (n + 1) m (.part n latch)

/-- The merge of two neighbouring spans of the array, of `p` and `r` elements. -/
def pairMerge (start scratch p r : Nat) : Merge where
  source := .array
  left := ⟨start, p⟩
  right := ⟨start + p, r⟩
  dest := scratch

/-- The merge of two halves that were merged into the workspace. -/
def halvesMerge (start scratch p r : Nat) : Merge where
  source := .workspace
  left := ⟨scratch, p⟩
  right := ⟨scratch + p, r⟩
  dest := start

/-- The latches of a span's quarters have been made, and nothing else has changed. -/
structure Opened (s s₀ : Store α) : Prop where
  buffer : ∀ b, s₀.buffer b = s.buffer b
  pending : s₀.pending = s.pending ++ #[0, 1, 0, 1, 0, 0, 0, 1, 0, 0]
  completed : s₀.completed = s.completed

theorem Opened.frame {s s₀ : Store α} (h : Opened s s₀) (touched : Buffer → Nat → Prop) :
    Store.Frame touched s s₀ where
  size b := by rw [h.buffer]
  cells b i _ := by rw [h.buffer]
  pending i hi := by rw [h.pending, Array.getElem?_append_left hi]
  completed := h.completed

theorem Opened.counter {s s₀ : Store α} (h : Opened s s₀) (i : Nat) :
    s₀.pending[s.pending.size + i]? = (#[0, 1, 0, 1, 0, 0, 0, 1, 0, 0] : Array UInt32)[i]? := by
  rw [h.pending, Array.getElem?_append_right (Nat.le_add_right _ _), Nat.add_sub_cancel_left]

section

variable (n start scratch half quarter rest : Nat) (latch : Latch)

/-- What the merges of both halves report to. -/
def backLatch : Latch :=
  triggerAt n (halvesMerge start scratch half rest) latch

/-- What the two upper quarters report to. -/
def upperLatch : Latch :=
  triggerAt (n + 2) (pairMerge (start + half) (scratch + half) quarter (rest - quarter))
    (backLatch n start scratch half rest latch)

/-- What the two lower quarters report to. -/
def lowerLatch : Latch :=
  triggerAt (n + 6) (pairMerge start scratch quarter (half - quarter))
    (backLatch n start scratch half rest latch)

end

variable {g K : Nat} {latch : Latch} {later forked : List Task} {s : Store α}
  {start scratch len : Nat}

theorem sorting_split (latch : Latch) (later forked : List Task) (start scratch : Nat)
    (h : g < len) : ∃ s₀, Opened s s₀ ∧
    sorting g K latch later s start len scratch forked =
      sorting g K (.part (s.pending.size + 9) (lowerLatch s.pending.size start scratch (len / 2)
        (len / 2 / 2) (len - len / 2) latch)) later s₀ start (len / 2 / 2) scratch
        (.sort (.part (s.pending.size + 8) (lowerLatch s.pending.size start scratch (len / 2)
            (len / 2 / 2) (len - len / 2) latch))
          ⟨start + len / 2 / 2, len / 2 - len / 2 / 2⟩ (scratch + len / 2 / 2) ::
        .sort (.part (s.pending.size + 5) (upperLatch s.pending.size start scratch (len / 2)
            (len / 2 / 2) (len - len / 2) latch))
          ⟨start + len / 2, len / 2 / 2⟩ (scratch + len / 2) ::
        .sort (.part (s.pending.size + 4) (upperLatch s.pending.size start scratch (len / 2)
            (len / 2 / 2) (len - len / 2) latch))
          ⟨start + len / 2 + len / 2 / 2, len - len / 2 - len / 2 / 2⟩
          (scratch + len / 2 + len / 2 / 2) :: forked) := by
  rw [sorting, Task.forkQuarters, if_pos h]
  simp only [openTrigger, openPart, StateT.run_bind, run_openLatch, Calling.done_bind,
    Array.size_push, ← Nat.add_assoc, ← Nat.sub_sub]
  refine ⟨_, ?_, rfl⟩
  refine ⟨fun b => by cases b <;> rfl, ?_, rfl⟩
  rw [← Array.toList_inj]
  simp only [Array.toList_push, Array.toList_append, List.append_assoc, List.cons_append,
    List.nil_append]

/-! ## Counting -/

/-- The number of tasks that the sort of `len` elements forks, or more. -/
def forks (g : Nat) (hg : 0 < g) (len : Nat) : Nat :=
  if g < len then
    forks g hg (len / 2 / 2) + forks g hg (len / 2 - len / 2 / 2) +
      (forks g hg (len / 2 / 2) + forks g hg (len - len / 2 - len / 2 / 2)) + 2 * len
  else 0
termination_by len

/-- The squares of two parts of a number are together no more than its square. -/
theorem sq_add_sq_le (a b : Nat) : a * a + b * b ≤ (a + b) * (a + b) := by
  rw [Nat.add_mul, Nat.mul_add, Nat.mul_add]
  omega

theorem forks_le (g : Nat) (hg : 0 < g) (len : Nat) : forks g hg len ≤ 4 * (len * len) := by
  induction len using Nat.strongRecOn with
  | ind len ih =>
    rw [forks]
    by_cases hlong : g < len
    · rw [if_pos hlong]
      have hll := ih (len / 2 / 2) (by omega)
      have hlu := ih (len / 2 - len / 2 / 2) (by omega)
      have huu := ih (len - len / 2 - len / 2 / 2) (by omega)
      have hlower := sq_add_sq_le (len / 2 / 2) (len / 2 - len / 2 / 2)
      have hupper := sq_add_sq_le (len / 2 / 2) (len - len / 2 - len / 2 / 2)
      rw [Nat.add_sub_cancel' (by omega)] at hlower hupper
      -- the square of the sum of both halves has twice their product besides
      have hmixed : len ≤ 2 * ((len / 2) * (len - len / 2)) + 1 := by
        have := Nat.mul_le_mul_right (len - len / 2) (show 1 ≤ len / 2 by omega)
        omega
      have hsq : len * len = (len / 2) * (len / 2) + (len - len / 2) * (len - len / 2) +
          2 * ((len / 2) * (len - len / 2)) := by
        have hlen : len = len / 2 + (len - len / 2) := by omega
        conv => lhs; rw [hlen]
        rw [Nat.add_mul, Nat.mul_add, Nat.mul_add, Nat.mul_comm (len - len / 2) (len / 2)]
        omega
      omega
    · rw [if_neg hlong]
      exact Nat.zero_le _

/-! ## Pairs of quarters -/

/-- The sort of `len` elements by tasks is the sort by quarters, up to the report to its latch. -/
def SortsAs (α : Type) (g : Nat) (hg : 0 < g) (len : Nat) : Prop :=
  ∀ (latch : Latch) (later forked : List Task) {K k start scratch : Nat} {s : Store α},
    SortFits start scratch len s → k + forks g hg len ≤ K →
    Follows (Reports g k latch (forked ++ later) fun ys s' => SortedSpan start scratch len ys s s')
      (sorting g K latch later s start len scratch forked)
      (sortQuarters g hg (s.segment .array ⟨start, len⟩))

/-- Sorts two lists, and merges them. -/
def sortPair (g : Nat) (hg : 0 < g) (xs ys : List α) : Calling α Ordering (List α) := do
  let first ← sortQuarters g hg xs
  let second ← sortQuarters g hg ys
  splitMerge g first second

theorem sortQuarters_split {hg : 0 < g} {xs : List α} (h : g < xs.length) :
    sortQuarters g hg xs = (do
      let lower ← sortPair g hg (xs.take (xs.length / 2 / 2))
        ((xs.drop (xs.length / 2 / 2)).take (xs.length / 2 - xs.length / 2 / 2))
      let upper ← sortPair g hg ((xs.drop (xs.length / 2)).take (xs.length / 2 / 2))
        (xs.drop (xs.length / 2 + xs.length / 2 / 2))
      splitMerge g lower upper) := by
  rw [sortQuarters, if_pos h]
  simp only [sortPair, Calling.bind_bind]

/-- What is left of the state once a pair of quarters is sorted and merged. -/
structure SortedPair (start scratch len : Nat) (ys : List α) (s s' : Store α) : Prop where
  frame : Store.Frame (sortTouches start scratch len) s s'
  segment : s'.segment .workspace ⟨scratch, len⟩ = ys

theorem SortFits.pairMerge {p r : Nat} (h : SortFits start scratch (p + r) s) :
    (pairMerge start scratch p r).Fits s := by
  obtain ⟨h₁, h₂, h₃⟩ := h
  constructor <;> simp only [Sorting.pairMerge, Merge.target, Span.stop, Buffer.other] <;> omega

theorem SortFits.halvesMerge (h : SortFits start scratch len s) :
    (halvesMerge start scratch (len / 2) (len - len / 2)).Fits s := by
  obtain ⟨h₁, h₂, h₃⟩ := h
  constructor <;> simp only [Sorting.halvesMerge, Merge.target, Span.stop, Buffer.other] <;> omega

theorem touches_halvesMerge (b : Buffer) (i : Nat)
    (h : (halvesMerge start scratch (len / 2) (len - len / 2)).touches b i) :
    sortTouches start scratch len b i := by
  obtain ⟨rfl, h⟩ := h
  simp only [halvesMerge, Merge.target, Span.stop] at h
  exact ⟨h.1, by omega⟩

theorem touches_pairMerge {p r : Nat} (b : Buffer) (i : Nat)
    (h : (pairMerge start scratch p r).touches b i) : sortTouches start scratch (p + r) b i := by
  obtain ⟨rfl, h⟩ := h
  exact h

/-- The first of two parts has been sorted and reports to the trigger of their merge, which waits
for the other. -/
theorem SortedSpan.report_first {i : Nat} {T : Latch} {first : List α} {s₁ : Store α}
    (h : SortedSpan start scratch len first s s₁) (hi : s.pending[i]? = some 0)
    (hT : s.pending[T.id]? = some 1) : ∃ s₂,
      reporting g K (.part i T) later s₁ = alone (Task.run g) K later s₂ ∧
      SortedSpan start scratch len first (s.told T 0 false) s₂ := by
  have hi₁ := h.frame.pending_eq hi
  have frame₁ : Store.Frame (sortTouches start scratch len) s (s₁.told (.part i T) 0 true) :=
    h.frame.trans (.told true hi₁)
  rw [reporting_part hi₁, reporting_early (frame₁.pending_eq hT) (by decide)]
  refine ⟨_, rfl, frame₁.told_told, ?_⟩
  rw [Store.segment_told, Store.segment_told]
  exact h.segment

/-- Two neighbouring parts have been sorted, one after the other. -/
theorem SortedSpan.both {p r : Nat} {first second : List α} {s₁ s₂ : Store α}
    (h : SortedSpan start scratch p first s s₁)
    (h' : SortedSpan (start + p) (scratch + p) r second s₁ s₂) :
    Store.Frame (sortTouches start scratch (p + r)) s s₂ ∧
      s₂.segment .array ⟨start, p⟩ = first := by
  refine ⟨(h.frame.mono (sortTouches_first (Nat.le_add_right p r))).trans
    (h'.frame.mono (sortTouches_part (Nat.le_refl _))), ?_⟩
  rw [h'.frame.segment_eq, h.segment]
  intro b _ hb hb'
  exact absurd hb'.1 (Nat.not_le.2 hb)

/-- **Two neighbouring spans are sorted and merged**, up to the report to what the merge reports
to. -/
theorem follows_pair {hg : 0 < g} {n i j p r k : Nat} {w T : Latch} {pool : List Task}
    (hp : SortsAs α g hg p) (hr : SortsAs α g hg r) (hpos : 0 < p + r)
    (hT : T = .trigger (n + 1) (pairMerge start scratch p r) (.part n w))
    (hfits : SortFits start scratch (p + r) s) (hi : s.pending[i]? = some 0)
    (hj : s.pending[j]? = some 0) (hn : s.pending[n]? = some 0)
    (hcounter : s.pending[n + 1]? = some 1)
    (hpool : forked ++ later = .sort (.part j T) ⟨start + p, r⟩ (scratch + p) :: pool)
    (hK : k + (forks g hg p + forks g hg r + (p + r)) ≤ K) :
    Follows (Reports g k w pool fun ys s' =>
        SortedPair start scratch (p + r) ys (s.told T 0 false) s')
      (sorting g K (.part i T) later s start p scratch forked)
      (sortPair g hg (s.segment .array ⟨start, p⟩) (s.segment .array ⟨start + p, r⟩)) := by
  have hid : T.id = n + 1 := by rw [hT]; rfl
  have hjn : j ≠ n + 1 := by
    rintro rfl
    rw [hcounter] at hj
    cases hj
  rw [sortPair]
  refine (hp _ _ _ (k := k + (1 + forks g hg r + (p + r - 1)))
    (hfits.first (Nat.le_add_right p r)) (by omega)).bind ?_
  rintro first _ ⟨K₁, s₁, hk₁, rfl, hs₁⟩
  obtain ⟨s₂, hreport, hs₂⟩ := hs₁.report_first (g := g) (K := K₁) hi (by rwa [hid])
  rw [hpool, hreport, alone_sort (by omega)]
  -- the second part
  have hsecond : s.segment .array ⟨start + p, r⟩ = s₂.segment .array ⟨start + p, r⟩ := by
    rw [hs₂.frame.segment_eq, Store.segment_told]
    intro b hb _ hb'
    exact absurd hb'.2 (Nat.not_lt.2 hb)
  have hfits₂ := hfits.told.frame hs₂.frame
  rw [hsecond]
  refine (hr _ _ _ (k := k + (p + r - 1)) (hfits₂.part (Nat.le_refl _)) (by omega)).bind ?_
  rintro second _ ⟨K₃, s₃, hk₃, rfl, hs₃⟩
  obtain ⟨frame₃, hfirst₃⟩ := hs₂.both hs₃
  have hj₃ : s₃.pending[j]? = some 0 :=
    frame₃.pending_eq (by rwa [Store.pending_told_of_ne (by rwa [hid])])
  have hn₃ : s₃.pending[n]? = some 0 :=
    frame₃.pending_eq (by rwa [Store.pending_told_of_ne (by rw [hid]; omega)])
  have hcounter₃ : s₃.pending[n + 1]? = some 0 := by
    refine frame₃.pending_eq ?_
    rw [← hid]
    exact Store.pending_told_self (q := 1) (by rwa [hid])
  -- the second report to the trigger, and the merge
  have frame₄ : Store.Frame (fun _ _ => False) s₃ (s₃.told (.part j T) 0 true) := .told true hj₃
  subst hT
  rw [List.nil_append, reporting_part hj₃, reporting_trigger (frame₄.pending_eq hcounter₃)]
  have frame₅ : Store.Frame (fun _ _ => False) s₃ ((s₃.told _ 0 true).told
      (.trigger (n + 1) (pairMerge start scratch p r) (.part n w)) 0 true) :=
    frame₄.trans (.told true (frame₄.pending_eq hcounter₃))
  generalize (s₃.told _ 0 true).told _ 0 true = s₅ at frame₅
  have hfirst₅ : s₅.segment (pairMerge start scratch p r).source
      (pairMerge start scratch p r).left = first :=
    (frame₅.segment_eq fun _ _ _ => id).trans hfirst₃
  have hsecond₅ : s₅.segment (pairMerge start scratch p r).source
      (pairMerge start scratch p r).right = second :=
    (frame₅.segment_eq fun _ _ _ => id).trans hs₃.segment
  rw [← hfirst₅, ← hsecond₅]
  refine (follows_merging hg (.part n w) ((hfits.told.frame frame₃).frame frame₅).pairMerge
    (frame₅.pending_eq hn₃) hk₃).mono ?_
  rintro ys _ ⟨K₆, s₆, hk₆, rfl, hs₆⟩
  have hn₆ := hs₆.frame.pending_eq (frame₅.pending_eq hn₃)
  refine ⟨K₆, _, hk₆, reporting_part hn₆, ?_, ?_⟩
  · exact ((frame₃.trans (frame₅.mono fun _ _ => False.elim)).trans
      (hs₆.frame.mono touches_pairMerge)).trans (.told true hn₆)
  · rw [Store.segment_told]
    exact hs₆.segment

/-! ## Spans -/

/-- A span that is cut no more. -/
theorem follows_sorting_leaf {hg : 0 < g} {k : Nat} (h : ¬ g < len)
    (hfits : SortFits start scratch len s) (hK : k ≤ K) :
    Follows (Reports g k latch (forked ++ later) fun ys s' => SortedSpan start scratch len ys s s')
      (sorting g K latch later s start len scratch forked)
      (sortQuarters g hg (s.segment .array ⟨start, len⟩)) := by
  have hlen : (s.segment .array ⟨start, len⟩).length = len := Store.length_segment hfits.array
  rw [sorting, Task.forkQuarters, if_neg h, StateT.run_pure, Calling.pure_eq, Calling.done_bind,
    sortQuarters, if_neg (by rwa [hlen]), ← Calling.bind_done (sortShort _)]
  refine (follows_sortUncut hfits).seq ?_
  rintro ⟨_, s'⟩ ys hs'
  refine .done ⟨K, _, hK, rfl, hs'.frame.trans (.noted _), ?_⟩
  rw [Store.segment_noted]
  exact hs'.segment

theorem sortQuarters_segment {hg : 0 < g} (h : g < len) (hfits : SortFits start scratch len s) :
    sortQuarters g hg (s.segment .array ⟨start, len⟩) = (do
      let lower ← sortPair g hg (s.segment .array ⟨start, len / 2 / 2⟩)
        (s.segment .array ⟨start + len / 2 / 2, len / 2 - len / 2 / 2⟩)
      let upper ← sortPair g hg (s.segment .array ⟨start + len / 2, len / 2 / 2⟩)
        (s.segment .array ⟨start + len / 2 + len / 2 / 2, len - len / 2 - len / 2 / 2⟩)
      splitMerge g lower upper) := by
  have ha := hfits.array
  have hlen : (s.segment .array ⟨start, len⟩).length = len := Store.length_segment ha
  rw [sortQuarters_split (by rwa [hlen]), hlen, Store.segment_take ha (by omega),
    Store.segment_drop ha (by omega), Store.segment_drop ha (by omega),
    Store.segment_drop ha (by omega), Store.segment_take (by omega) (by omega),
    Store.segment_take (by omega) (by omega), ← Nat.add_assoc, ← Nat.sub_sub]

/-- The lower half has been sorted and merged, and has reported to the merge of the halves. -/
structure LowerDone (start scratch len : Nat) (lower : List α) (s s₂ : Store α) : Prop where
  frame : Store.Frame (sortTouches start scratch (len / 2)) s s₂
  segment : s₂.segment .workspace ⟨scratch, len / 2⟩ = lower
  back : s₂.pending[s.pending.size + 1]? = some 0
  counter : ∀ (i : Nat) (v : UInt32), i ≠ 1 → i ≠ 7 →
    (#[0, 1, 0, 1, 0, 0, 0, 1, 0, 0] : Array UInt32)[i]? = some v →
      s₂.pending[s.pending.size + i]? = some v

theorem SortedPair.lowerDone {s₀ s₁ : Store α} {lower : List α} (hopened : Opened s s₀)
    (hs₁ : SortedPair start scratch (len / 2) lower (s₀.told (lowerLatch s.pending.size start
      scratch (len / 2) (len / 2 / 2) (len - len / 2) latch) 0 false) s₁) :
    s₁.pending[s.pending.size + 1]? = some 1 ∧
      LowerDone start scratch len lower s (s₁.told (backLatch s.pending.size start scratch (len / 2)
        (len - len / 2) latch) (1 - 1) false) := by
  have hlower : (lowerLatch s.pending.size start scratch (len / 2) (len / 2 / 2) (len - len / 2)
    latch).id = s.pending.size + 7 := rfl
  have hback : (backLatch s.pending.size start scratch (len / 2) (len - len / 2) latch).id =
    s.pending.size + 1 := rfl
  have hcounter : ∀ (i : Nat) (v : UInt32), i ≠ 7 →
      (#[0, 1, 0, 1, 0, 0, 0, 1, 0, 0] : Array UInt32)[i]? = some v →
        s₁.pending[s.pending.size + i]? = some v := by
    intro i v hi hv
    refine hs₁.frame.pending_eq ?_
    rw [Store.pending_told_of_ne (by rw [hlower]; omega), hopened.counter, hv]
  have hback₁ := hcounter 1 1 (by decide) rfl
  refine ⟨hback₁, ?_, ?_, ?_, fun i v h1 h7 hv => ?_⟩
  · exact (((hopened.frame _).told_new (by rw [hlower]; omega)).trans hs₁.frame).told_new
      (by rw [hback]; omega)
  · rw [Store.segment_told]
    exact hs₁.segment
  · rw [← hback]
    exact Store.pending_told_self (q := 1) (by rwa [hback])
  · rw [Store.pending_told_of_ne (by rw [hback]; omega)]
    exact hcounter i v h7 hv

/-- The upper half has been sorted and merged as well. -/
structure BothDone (start scratch len : Nat) (lower upper : List α) (s s₃ : Store α) : Prop where
  frame : Store.Frame (sortTouches start scratch len) s s₃
  lower : s₃.segment .workspace ⟨scratch, len / 2⟩ = lower
  upper : s₃.segment .workspace ⟨scratch + len / 2, len - len / 2⟩ = upper
  pending : s₃.pending[s.pending.size]? = some 0
  back : s₃.pending[s.pending.size + 1]? = some 0

theorem SortedPair.bothDone {s₂ s₃ : Store α} {lower upper : List α} {q : Nat}
    (hs₂ : LowerDone start scratch len lower s s₂)
    (hs₃ : SortedPair (start + len / 2) (scratch + len / 2) (len - len / 2) upper
      (s₂.told (upperLatch s.pending.size start scratch (len / 2) q (len - len / 2) latch) 0 false)
      s₃) :
    BothDone start scratch len lower upper s s₃ where
  frame := ((hs₂.frame.mono (sortTouches_first (Nat.div_le_self _ _))).told_new
    (by change _ ≤ s.pending.size + 2 + 1; omega)).trans
    (hs₃.frame.mono (sortTouches_part (by omega)))
  lower := by
    rw [hs₃.frame.segment_eq, Store.segment_told, hs₂.segment]
    intro i _ hi hi'
    exact absurd hi'.1 (Nat.not_le.2 hi)
  upper := hs₃.segment
  pending := by
    refine hs₃.frame.pending_eq ?_
    rw [Store.pending_told_of_ne (by change _ ≠ s.pending.size + 2 + 1; omega)]
    exact hs₂.counter 0 0 (by decide) (by decide) rfl
  back := by
    refine hs₃.frame.pending_eq ?_
    rw [Store.pending_told_of_ne (by change _ ≠ s.pending.size + 2 + 1; omega)]
    exact hs₂.back

/-- When both halves have reported, they are merged. -/
theorem follows_halves {k : Nat} {s₃ : Store α} {lower upper : List α} (hg : 0 < g)
    (hfits : SortFits start scratch len s) (hs₃ : BothDone start scratch len lower upper s s₃)
    (hK : k + (len - 1) ≤ K) :
    Follows (Reports g k latch later fun ys s' => SortedSpan start scratch len ys s s')
      (reporting g K (backLatch s.pending.size start scratch (len / 2) (len - len / 2) latch)
        later s₃)
      (splitMerge g lower upper) := by
  rw [backLatch, triggerAt, reporting_trigger hs₃.back]
  have frame₄ : Store.Frame (fun _ _ => False) s₃ (s₃.told (backLatch s.pending.size start scratch
    (len / 2) (len - len / 2) latch) 0 true) := .told true hs₃.back
  have hlower₄ := (frame₄.segment_eq fun _ _ _ => id).trans hs₃.lower
  have hupper₄ := (frame₄.segment_eq fun _ _ _ => id).trans hs₃.upper
  have hn₄ := frame₄.pending_eq hs₃.pending
  have hlens : len / 2 + (len - len / 2) = len := Nat.add_sub_cancel' (Nat.div_le_self _ _)
  rw [← hlower₄, ← hupper₄]
  refine (follows_merging hg (.part s.pending.size latch) (K := K) (k := k)
    (m := halvesMerge start scratch (len / 2) (len - len / 2))
    ((hfits.frame hs₃.frame).frame frame₄).halvesMerge hn₄ ?_).mono ?_
  · change k + (len / 2 + (len - len / 2) - 1) ≤ K
    rwa [hlens]
  · rintro ys _ ⟨K₅, s₅, hk₅, rfl, hs₅⟩
    have hn₅ := hs₅.frame.pending_eq hn₄
    refine ⟨K₅, _, hk₅, reporting_part hn₅, ?_, ?_⟩
    · exact ((hs₃.frame.told_new (Nat.le_add_right _ 1)).trans
        (hs₅.frame.mono touches_halvesMerge)).told_new (Nat.le_refl _)
    · have htarget :
          (halvesMerge start scratch (len / 2) (len - len / 2)).target = ⟨start, len⟩ := by
        rw [Merge.target, halvesMerge, hlens]
      rw [Store.segment_told, ← htarget]
      exact hs₅.segment

/-- The upper half is sorted and merged when the lower half was, and then the halves are merged. -/
theorem follows_upper {hg : 0 < g} {k : Nat} {s₂ : Store α} {lower : List α} {pool : List Task}
    (h : g < len) (hp : SortsAs α g hg (len / 2 / 2))
    (hr : SortsAs α g hg (len - len / 2 - len / 2 / 2)) (hfits : SortFits start scratch len s)
    (hs₂ : LowerDone start scratch len lower s s₂)
    (hK : k + (forks g hg (len / 2 / 2) + forks g hg (len - len / 2 - len / 2 / 2) +
      (len - len / 2)) + (len - 1) ≤ K) :
    Follows (Reports g k latch pool fun ys s' => SortedSpan start scratch len ys s s')
      (sorting g K (.part (s.pending.size + 5) (upperLatch s.pending.size start scratch (len / 2)
          (len / 2 / 2) (len - len / 2) latch))
        (.sort (.part (s.pending.size + 4) (upperLatch s.pending.size start scratch (len / 2)
            (len / 2 / 2) (len - len / 2) latch))
          ⟨start + len / 2 + len / 2 / 2, len - len / 2 - len / 2 / 2⟩
          (scratch + len / 2 + len / 2 / 2) :: pool)
        s₂ (start + len / 2) (len / 2 / 2) (scratch + len / 2) [])
      (do
        let upper ← sortPair g hg (s.segment .array ⟨start + len / 2, len / 2 / 2⟩)
          (s.segment .array ⟨start + len / 2 + len / 2 / 2, len - len / 2 - len / 2 / 2⟩)
        splitMerge g lower upper) := by
  have hrest : len / 2 / 2 + (len - len / 2 - len / 2 / 2) = len - len / 2 := by omega
  have hstay₂ : ∀ a n, start + len / 2 ≤ a →
      s.segment .array ⟨a, n⟩ = s₂.segment .array ⟨a, n⟩ := by
    intro a n ha
    refine (hs₂.frame.segment_eq fun i hi _ hi' => ?_).symm
    exact absurd hi'.2 (Nat.not_lt.2 (Nat.le_trans ha hi))
  have hfits₂ := hfits.frame hs₂.frame
  rw [hstay₂ _ _ (Nat.le_refl _), hstay₂ _ _ (Nat.le_add_right _ _)]
  refine (follows_pair (n := s.pending.size + 2) (j := s.pending.size + 4) (k := k + (len - 1))
    (w := backLatch s.pending.size start scratch (len / 2) (len - len / 2) latch)
    hp hr (by omega) rfl (by rw [hrest]; exact hfits₂.part (by omega))
    (hs₂.counter 5 0 (by decide) (by decide) rfl) (hs₂.counter 4 0 (by decide) (by decide) rfl)
    (hs₂.counter 2 0 (by decide) (by decide) rfl) (hs₂.counter 3 1 (by decide) (by decide) rfl)
    rfl (by omega)).bind ?_
  rintro upper _ ⟨K₃, s₃, hk₃, rfl, hs₃⟩
  rw [hrest] at hs₃
  exact follows_halves hg hfits (hs₃.bothDone hs₂) hk₃

/-- **A sort by tasks is the sort by quarters**, up to the report to its latch. -/
theorem follows_sorting (g : Nat) (hg : 0 < g) (len : Nat) : SortsAs α g hg len := by
  induction len using Nat.strongRecOn with
  | ind len ih =>
    intro latch later forked K k start scratch s hfits hK
    by_cases h : g < len
    · obtain ⟨s₀, hopened, heq⟩ :=
        sorting_split (K := K) (s := s) latch later forked start scratch h
      rw [heq, sortQuarters_segment h hfits]
      rw [forks, if_pos h] at hK
      have hhalf : len / 2 / 2 + (len / 2 - len / 2 / 2) = len / 2 := by omega
      have hstay₀ : ∀ a n, s.segment .array ⟨a, n⟩ = s₀.segment .array ⟨a, n⟩ := fun a n =>
        ((hopened.frame fun _ _ => False).segment_eq fun _ _ _ => id).symm
      rw [hstay₀ start, hstay₀ (start + len / 2 / 2)]
      refine (follows_pair (n := s.pending.size + 6) (j := s.pending.size + 8)
        (k := k + (1 + (forks g hg (len / 2 / 2) + forks g hg (len - len / 2 - len / 2 / 2) +
          (len - len / 2)) + (len - 1)))
        (w := backLatch s.pending.size start scratch (len / 2) (len - len / 2) latch)
        (ih (len / 2 / 2) (by omega)) (ih (len / 2 - len / 2 / 2) (by omega)) (by omega) rfl
        ((hfits.first (by omega)).frame (hopened.frame fun _ _ => False))
        (hopened.counter 9) (hopened.counter 8) (hopened.counter 6) (hopened.counter 7)
        List.cons_append (by omega)).bind ?_
      rintro lower _ ⟨K₁, s₁, hk₁, rfl, hs₁⟩
      rw [hhalf] at hs₁
      obtain ⟨hback, hs₂⟩ := hs₁.lowerDone hopened
      rw [reporting_early hback (by decide), List.cons_append, List.cons_append,
        alone_sort (by omega)]
      exact follows_upper h (ih _ (by omega)) (ih _ (by omega)) hfits hs₂ (by omega)
    · exact follows_sorting_leaf h hfits (by omega)

end ForkJoin.Sorting

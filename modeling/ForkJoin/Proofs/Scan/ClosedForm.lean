import ForkJoin.Proofs.Contract
import ForkJoin.Proofs.Scan.DepthFirst
import ForkJoin.Proofs.Scan.Grouping
import ForkJoin.Scan
import Mathlib.Algebra.Ring.Nat

/-!
# The values a scan leaves

Under an operator that has an answer on all it is asked, every pass of a scan leaves values of known
groupings: the first the sum of each left half, the second the sum of everything up to each index,
with the sum of what precedes the span in front. Nothing else is assumed of the operator, so the
brackets are exactly those of `Grouping.upTo`.
-/
namespace ForkJoin.Scan

open Calling Grouping

variable {α ε : Type} {op : α → α → α} {P : α → Prop}

/-! ## Leaves -/

theorem foldFrom_on (hP : ∀ a b, P a → P b → P (op a b)) {acc : α} {xs : List α} (ha : P acc)
    (hxs : ∀ x ∈ xs, P x) :
    (foldFrom acc xs).Ensures (.on P op) fun sum => sum = xs.foldl op acc := by
  induction xs generalizing acc with
  | nil => exact rfl
  | cons x xs ih =>
    have hx := hxs x List.mem_cons_self
    refine ⟨⟨ha, hx⟩, ?_⟩
    rintro _ rfl
    exact ih (hP acc x ha hx) fun y hy => hxs y (List.mem_cons_of_mem x hy)

theorem fold_on (hP : ∀ a b, P a → P b → P (op a b)) {xs : List α} (hxs : ∀ x ∈ xs, P x) :
    (Scan.fold xs).Ensures (.on P op) fun sum => sum = leftFold op xs := by
  cases xs with
  | nil => exact rfl
  | cons x xs =>
    refine Ensures.map ((foldFrom_on hP (hxs x List.mem_cons_self) fun y hy =>
      hxs y (List.mem_cons_of_mem x hy)).mono ?_)
    rintro _ rfl
    rfl

theorem sweepFrom_on (hP : ∀ a b, P a → P b → P (op a b)) {swept : List α} {last : α}
    {xs : List α} (hl : P last) (hxs : ∀ x ∈ xs, P x) :
    (sweepFrom (last :: swept) last xs).Ensures (.on P op) fun ys =>
      ys = swept.reverse ++ xs.scanl op last := by
  induction xs generalizing swept last with
  | nil => exact List.reverse_cons
  | cons x xs ih =>
    have hx := hxs x List.mem_cons_self
    refine ⟨⟨hl, hx⟩, ?_⟩
    rintro _ rfl
    refine (ih (hP last x hl hx) fun y hy => hxs y (List.mem_cons_of_mem x hy)).mono ?_
    rintro _ rfl
    rw [List.reverse_cons, List.append_assoc, List.scanl_cons]
    rfl

/-- A swept leaf: at each place stands the sum of the carry and all elements up to it. -/
theorem sweep_on (hP : ∀ a b, P a → P b → P (op a b)) {carry : Option α} {xs : List α}
    (hc : ∀ c ∈ carry, P c) (hxs : ∀ x ∈ xs, P x) :
    (Scan.sweep carry xs).Ensures (.on P op) fun ys => ys.length = xs.length ∧
      ∀ i < xs.length, ys[i]? = leftFold op (carry.toList ++ xs.take (i + 1)) := by
  cases xs with
  | nil => exact ⟨rfl, fun i hi => absurd hi (Nat.not_lt_zero i)⟩
  | cons x xs =>
    have hx := hxs x List.mem_cons_self
    have htail : ∀ y ∈ xs, P y := fun y hy => hxs y (List.mem_cons_of_mem x hy)
    cases carry with
    | none =>
      refine (sweepFrom_on hP hx htail).mono ?_
      rintro _ rfl
      refine ⟨List.length_scanl, fun i hi => ?_⟩
      rw [List.reverse_nil, List.nil_append, List.getElem?_scanl, if_pos (Nat.le_of_lt_succ hi)]
      rfl
    | some c =>
      refine ⟨⟨hc c rfl, hx⟩, ?_⟩
      rintro _ rfl
      refine (sweepFrom_on hP (hP c x (hc c rfl) hx) htail).mono ?_
      rintro _ rfl
      refine ⟨List.length_scanl, fun i hi => ?_⟩
      rw [List.reverse_nil, List.nil_append, List.getElem?_scanl, if_pos (Nat.le_of_lt_succ hi)]
      rfl

/-! ## Segments -/

theorem length_segmentOf {xs : List α} {s : Span} (hs : s.stop ≤ xs.length) :
    (segmentOf xs s).length = s.len := by
  simp only [segmentOf, Span.stop, List.length_take, List.length_drop] at hs ⊢
  omega

theorem mem_segmentOf {xs : List α} {s : Span} {x : α} (hx : x ∈ segmentOf xs s) : x ∈ xs :=
  List.mem_of_mem_drop (List.mem_of_mem_take hx)

theorem segmentOf_lower {xs : List α} {s : Span} :
    (segmentOf xs s).take (s.len / 2) = segmentOf xs s.lower := by
  rw [segmentOf, List.take_take, Nat.min_eq_left (Nat.div_le_self _ _)]
  rfl

theorem segmentOf_upper {xs : List α} {s : Span} :
    (segmentOf xs s).drop (s.len / 2) = segmentOf xs s.upper := by
  rw [segmentOf, List.drop_take, List.drop_drop]
  rfl

theorem stop_lower_le {s : Span} {len : Nat} (hs : s.stop ≤ len) : s.lower.stop ≤ len := by
  simp only [Span.stop, Span.lower] at hs ⊢
  omega

theorem stop_upper_le {s : Span} {len : Nat} (hs : s.stop ≤ len) : s.upper.stop ≤ len := by
  rwa [Span.stop_upper]

/-- The left fold of a leaf is its sum. -/
theorem value_fold {xs : List α} {s : Span} (hs : s.stop ≤ xs.length) (hpos : 0 < s.len) :
    (Grouping.fold s).value op xs = leftFold op (segmentOf xs s) := by
  have helems : elems s = elem s.start :: elems ⟨s.start + 1, s.len - 1⟩ := by
    obtain ⟨a, _ | b⟩ := s
    · exact absurd hpos (Nat.lt_irrefl 0)
    · rfl
  have := value_leftFold (map_value_elems op xs hs)
  rwa [helems] at this

/-! ## The first pass -/

section

variable (threshold : Nat) (ht : 0 < threshold) (op) (xs : List α)

/-- The first pass has left this of a span. -/
inductive SummedAs : Span → Summed α → Prop
  | leaf {s : Span} (h : ¬ threshold < s.len) : SummedAs s (.leaf (segmentOf xs s))
  | node {s : Span} {left right : Summed α} {sum : α} (h : threshold < s.len)
      (hl : SummedAs s.lower left) (hsum : (sumOf threshold ht s.lower).value op xs = some sum)
      (hr : SummedAs s.upper right) : SummedAs s (.node left sum right)

/-- The second pass has left these elements on a span, with `before` in front. -/
structure SweptAs (before : Option Grouping) (s : Span) (ys : List α) : Prop where
  length : ys.length = s.len
  value : ∀ i, s.start ≤ i → i < s.stop → ys[i - s.start]? =
    (leftFold join (before.toList ++ parts threshold ht s i)).bind (Grouping.value op xs)

end

variable {threshold : Nat} {ht : 0 < threshold} {xs : List α} {s : Span}

theorem sumUp_on (hP : ∀ a b, P a → P b → P (op a b)) (hxs : ∀ x ∈ xs, P x)
    (hs : s.stop ≤ xs.length) (hpos : 0 < s.len) :
    (sumUp threshold ht (segmentOf xs s)).Ensures (.on P op) fun summed =>
      SummedAs op threshold ht xs s summed.1 ∧
        (sumOf threshold ht s).value op xs = some summed.2 := by
  induction hlen : s.len using Nat.strongRecOn generalizing s with
  | ind len ih =>
    rw [sumUp, length_segmentOf hs]
    by_cases hlt : threshold < s.len
    · rw [if_pos hlt, segmentOf_lower, segmentOf_upper]
      refine (ih s.lower.len (by simp only [Span.lower]; omega) (stop_lower_le hs)
        (by simp only [Span.lower]; omega) rfl).bind ?_
      rintro ⟨left, x⟩ ⟨hleft, hx⟩
      refine (ih s.upper.len (by simp only [Span.upper]; omega) (stop_upper_le hs)
        (by simp only [Span.upper]; omega) rfl).bind ?_
      rintro ⟨right, y⟩ ⟨hright, hy⟩
      refine ⟨⟨value_mem hP hxs hx, value_mem hP hxs hy⟩, ?_⟩
      rintro _ rfl
      exact ⟨.node hlt hleft hx hright, sumOf_node hlt ▸ value_join hx hy⟩
    · obtain ⟨v, hv⟩ := exists_leftFold op
        (List.ne_nil_of_length_pos (by rwa [length_segmentOf hs]))
      rw [if_neg hlt]
      refine (fold_on hP fun x hx => hxs x (mem_segmentOf hx)).bind ?_
      rintro _ rfl
      rw [hv]
      exact ⟨.leaf hlt, by rw [sumOf_leaf hlt, value_fold hs hpos, hv]⟩

theorem sumLast_on (hP : ∀ a b, P a → P b → P (op a b)) (hxs : ∀ x ∈ xs, P x)
    (hs : s.stop ≤ xs.length) :
    (sumLast threshold ht (segmentOf xs s)).Ensures (.on P op) (SummedAs op threshold ht xs s) := by
  induction hlen : s.len using Nat.strongRecOn generalizing s with
  | ind len ih =>
    rw [sumLast, length_segmentOf hs]
    by_cases hlt : threshold < s.len
    · rw [if_pos hlt, segmentOf_lower, segmentOf_upper]
      refine (sumUp_on hP hxs (stop_lower_le hs) (by simp only [Span.lower]; omega)).bind ?_
      rintro ⟨left, x⟩ ⟨hleft, hx⟩
      refine (ih s.upper.len (by simp only [Span.upper]; omega) (stop_upper_le hs) rfl).bind ?_
      intro right hright
      exact .node hlt hleft hx hright
    · rw [if_neg hlt]
      exact .leaf hlt

/-! ## The second pass -/

theorem SweptAs.leaf {before : Option Grouping} {carry : Option α} {ys : List α}
    (hbefore : before.map (Grouping.value op xs) = carry.map some) (hs : s.stop ≤ xs.length)
    (h : ¬ threshold < s.len) (hlen : ys.length = s.len)
    (hys : ∀ i < s.len, ys[i]? = leftFold op (carry.toList ++ (segmentOf xs s).take (i + 1))) :
    SweptAs op threshold ht xs before s ys := by
  refine ⟨hlen, fun i hi his => ?_⟩
  have hi' : i + 1 - s.start ≤ s.len := by simp only [Span.stop] at his; omega
  have hfront : before.toList.map (Grouping.value op xs) = carry.toList.map some := by
    cases before <;> cases carry <;> simp_all
  have hpart := map_value_elems op xs (s := ⟨s.start, i + 1 - s.start⟩)
    (by simp only [Span.stop] at hs ⊢; omega)
  rw [hys _ (by omega), parts_leaf h,
    value_leftFold (by rw [List.map_append, List.map_append, hfront, hpart])]
  rw [segmentOf, segmentOf, List.take_take, Nat.min_eq_left (by omega), Nat.sub_add_comm hi]

/-- What precedes the upper half: what precedes the span, and the lower half. -/
def beforeUpper (threshold : Nat) (ht : 0 < threshold) (before : Option Grouping) (s : Span) :
    Grouping :=
  before.elim (sumOf threshold ht s.lower) (join · (sumOf threshold ht s.lower))

theorem SweptAs.append {before : Option Grouping} {left right : List α} (h : threshold < s.len)
    (hl : SweptAs op threshold ht xs before s.lower left)
    (hr : SweptAs op threshold ht xs (some (beforeUpper threshold ht before s)) s.upper right) :
    SweptAs op threshold ht xs before s (left ++ right) := by
  refine ⟨by rw [List.length_append, hl.length, hr.length, Span.len_halves], fun i hi his => ?_⟩
  by_cases hiu : i < s.upper.start
  · rw [List.getElem?_append_left, parts_lower h hiu]
    · exact hl.value i hi hiu
    · rw [hl.length]
      simp only [Span.upper, Span.lower] at hiu ⊢
      omega
  · have hiu := Nat.le_of_not_lt hiu
    have hsub : i - s.start - left.length = i - s.upper.start := by
      rw [hl.length]
      simp only [Span.upper, Span.lower] at hiu ⊢
      omega
    rw [List.getElem?_append_right, hsub, hr.value i hiu (by rwa [Span.stop_upper]),
      parts_upper h hiu]
    · cases before <;> rfl
    · rw [hl.length]
      simp only [Span.upper, Span.lower] at hiu ⊢
      omega

theorem sweepDown_on (hP : ∀ a b, P a → P b → P (op a b)) (hxs : ∀ x ∈ xs, P x)
    (hs : s.stop ≤ xs.length) {T : Summed α} (hT : SummedAs op threshold ht xs s T)
    {before : Grouping} {carry : α} (hbefore : before.value op xs = some carry) :
    (sweepDown carry T).Ensures (.on P op) (SweptAs op threshold ht xs (some before) s) := by
  induction hT generalizing before carry with
  | @leaf s h =>
    refine (sweep_on hP ?_ fun x hx => hxs x (mem_segmentOf hx)).mono ?_
    · intro c hc
      obtain rfl : carry = c := by simpa using hc
      exact value_mem hP hxs hbefore
    · rintro ys ⟨hlen, hys⟩
      rw [length_segmentOf hs] at hlen hys
      exact .leaf (by rw [Option.map_some, Option.map_some, hbefore]) hs h hlen hys
  | @node s left right sum h hl hsum hr ihl ihr =>
    refine ⟨⟨value_mem hP hxs hbefore, value_mem hP hxs hsum⟩, ?_⟩
    rintro _ rfl
    refine (ihl (stop_lower_le hs) hbefore).bind fun ys hys => ?_
    refine (ihr (stop_upper_le hs) (value_join hbefore hsum)).bind fun zs hzs => ?_
    exact hys.append h hzs

/-- Both passes over a span with nothing in front. -/
theorem scanFirst_on (hP : ∀ a b, P a → P b → P (op a b)) (hxs : ∀ x ∈ xs, P x)
    (hs : s.stop ≤ xs.length) (hpos : 0 < s.len) :
    (scanFirst threshold ht (segmentOf xs s)).Ensures (.on P op) fun scanned =>
      SweptAs op threshold ht xs none s scanned.1 ∧
        (sumOf threshold ht s).value op xs = some scanned.2 := by
  induction hlen : s.len using Nat.strongRecOn generalizing s with
  | ind len ih =>
    rw [scanFirst, length_segmentOf hs]
    by_cases hlt : threshold < s.len
    · rw [if_pos hlt, segmentOf_lower, segmentOf_upper]
      refine (ih s.lower.len (by simp only [Span.lower]; omega) (stop_lower_le hs)
        (by simp only [Span.lower]; omega) rfl).bind ?_
      rintro ⟨left, x⟩ ⟨hleft, hx⟩
      refine (sumUp_on hP hxs (stop_upper_le hs) (by simp only [Span.upper]; omega)).bind ?_
      rintro ⟨right, y⟩ ⟨hright, hy⟩
      refine ⟨⟨value_mem hP hxs hx, value_mem hP hxs hy⟩, ?_⟩
      rintro _ rfl
      refine (sweepDown_on hP hxs (stop_upper_le hs) hright hx).bind fun zs hzs => ?_
      exact ⟨hleft.append hlt hzs, sumOf_node hlt ▸ value_join hx hy⟩
    · rw [if_neg hlt]
      refine (sweep_on hP (by simp) fun x hx => hxs x (mem_segmentOf hx)).bind ?_
      rintro ys ⟨hylen, hys⟩
      rw [length_segmentOf hs] at hylen hys
      have hlast : ys.getLast? = leftFold op (segmentOf xs s) := by
        rw [List.getLast?_eq_getElem?, hylen, hys _ (by omega), Nat.sub_add_cancel hpos,
          ← length_segmentOf hs, List.take_length]
        rfl
      obtain ⟨v, hv⟩ := exists_leftFold op
        (List.ne_nil_of_length_pos (by rwa [length_segmentOf hs]))
      rw [hlast, hv]
      exact ⟨.leaf rfl hs hlt hylen hys, by rw [sumOf_leaf hlt, value_fold hs hpos, hv]⟩

/-! ## The whole window -/

/-- `ys` is what a scan leaves of `xs`: at each index the value of its grouping. -/
structure Bracketed (op : α → α → α) (threshold : Nat) (ht : 0 < threshold) (xs ys : List α) :
    Prop where
  length : ys.length = xs.length
  value : ∀ i < xs.length, ∃ g y, upTo threshold ht xs.length i = some g ∧
    g.value op xs = some y ∧ ys[i]? = some y

theorem SweptAs.bracketed {ys : List α}
    (h : SweptAs op threshold ht xs none ⟨0, xs.length⟩ ys) : Bracketed op threshold ht xs ys := by
  refine ⟨h.length, fun i hi => ?_⟩
  have hi' : i < ys.length := by rw [h.length]; exact hi
  have hvalue := h.value i (Nat.zero_le i) (by simpa [Span.stop] using hi)
  rw [Nat.sub_zero, List.getElem?_eq_getElem hi'] at hvalue
  obtain ⟨g, hg, hy⟩ := Option.bind_eq_some_iff.1 hvalue.symm
  exact ⟨g, ys[i], hg, hy, List.getElem?_eq_getElem hi'⟩

theorem scanAll_on (hP : ∀ a b, P a → P b → P (op a b)) (hxs : ∀ x ∈ xs, P x) :
    (scanAll threshold ht xs).Ensures (.on P op) (Bracketed op threshold ht xs) := by
  have hs : Span.stop ⟨0, xs.length⟩ ≤ xs.length := by simp [Span.stop]
  have hwhole : segmentOf xs ⟨0, xs.length⟩ = xs := by simp [segmentOf]
  rw [scanAll]
  by_cases hlt : threshold < xs.length
  · have hl : xs.take (xs.length / 2) = segmentOf xs (Span.lower ⟨0, xs.length⟩) := by
      rw [← segmentOf_lower, hwhole]
    have hu : xs.drop (xs.length / 2) = segmentOf xs (Span.upper ⟨0, xs.length⟩) := by
      rw [← segmentOf_upper, hwhole]
    rw [if_pos hlt, hl, hu]
    refine (scanFirst_on hP hxs (stop_lower_le hs) (by simp only [Span.lower]; omega)).bind ?_
    rintro ⟨left, x⟩ ⟨hleft, hx⟩
    refine (sumLast_on hP hxs (stop_upper_le hs)).bind fun right hright => ?_
    refine (sweepDown_on hP hxs (stop_upper_le hs) hright hx).bind fun zs hzs => ?_
    exact (hleft.append hlt hzs).bracketed
  · rw [if_neg hlt]
    refine (sweep_on hP (by simp) hxs).mono ?_
    rintro ys ⟨hlen, hys⟩
    exact (SweptAs.leaf rfl hs hlt hlen (by rwa [hwhole])).bracketed

/-- An operator with an answer on all it is asked gets a scan to its end. -/
theorem exists_scanArray {f : α → α → Except ε α} (hP : ∀ a b, P a → P b → P (op a b))
    (hf : ∀ a b, P a → P b → f a b = .ok (op a b)) {threshold : Nat} (ht : 0 < threshold)
    {xs : Array α} (hxs : ∀ x ∈ xs.toList, P x) :
    ∃ report, (scanArray threshold ht xs).run f = .ok report ∧
      Bracketed op threshold ht xs.toList report.result.toList := by
  have hkeeps : (scanArray threshold ht xs).Ensures (.on P op) fun ys =>
      Bracketed op threshold ht xs.toList ys.toList := by
    rw [scanArray_eq]
    exact Ensures.map (f := List.toArray) (scanAll_on hP hxs)
  refine exists_run (K := .on P op) ?_ hkeeps
  rintro a b ⟨ha, hb⟩
  exact ⟨_, hf a b ha hb, rfl⟩

/-- A scan of a window leaves the values of the groupings in it, and what is outside stays. -/
theorem exists_scanWith {f : α → α → Except ε α} (hP : ∀ a b, P a → P b → P (op a b))
    (hf : ∀ a b, P a → P b → f a b = .ok (op a b)) (tuning : Tuning) {xs : Array α} {w : Window}
    (hw : w.check xs.size = .ok ()) (hxs : ∀ x ∈ (xs.extract w.start w.stop).toList, P x) :
    ∃ calls ys values, scanWith tuning f xs w = .ok ⟨⟨ys.getLast?, values⟩, calls⟩ ∧
      values.toList = xs.toList.take w.start ++ ys ++ xs.toList.drop w.stop ∧
      Bracketed op (tuning.scanThreshold (xs.extract w.start w.stop).size)
        (tuning.scanThreshold_pos _) (xs.extract w.start w.stop).toList ys := by
  obtain ⟨report, hrun, hys⟩ := exists_scanArray hP hf (tuning.scanThreshold_pos _) hxs
  obtain ⟨hstart, hstop⟩ := Window.check_eq_ok_iff.1 hw
  have hlen : w.start + report.result.toList.length = w.stop := by
    rw [hys.length, Array.length_toList, Array.size_extract]
    omega
  refine ⟨report.calls, report.result.toList, overwrite xs w.start report.result.toList, ?_, ?_,
    hys⟩
  · rw [scanWith, scanUnder, hw, ofWindowUnder, ← scanArray, hrun, Array.getLast?_toList]
    rfl
  · rw [toList_overwrite _ _ _ (by omega), hlen]

/-- The threshold of a window of `n` elements, by the numbers that are given. -/
theorem scanThreshold_eq (tuning : Tuning) (n : Nat) : tuning.scanThreshold n =
    max tuning.minPartition.val (n / min (8 * tuning.parallelism.val) (2 ^ 64 - 1)) := by
  rw [Tuning.scanThreshold, Count.times, Count.limit, Nat.max_comm, Nat.mul_comm]
  rfl

/-- **A scan leaves the value of `Grouping.upTo` at each index**, whatever the operator. -/
theorem scan_bracketed (op : α → α → α) :
    (∀ (threshold : Nat) (ht : 0 < threshold) (xs : Array α), ∃ report,
      (scanArray threshold ht xs).run (fun a b => (.ok (op a b) : Except ε α)) = .ok report ∧
        Bracketed op threshold ht xs.toList report.result.toList) ∧
    ∀ (tuning : Tuning) (xs : Array α) (w : Window), w.start ≤ w.stop → w.stop ≤ xs.size →
      ∀ threshold n, n = w.stop - w.start →
        threshold = max tuning.minPartition.val
          (n / min (8 * tuning.parallelism.val) (2 ^ 64 - 1)) →
        ∃ ht calls ys values,
          scanWith tuning (fun a b => (.ok (op a b) : Except ε α)) xs w =
            .ok ⟨⟨ys.getLast?, values⟩, calls⟩ ∧
          values.toList = xs.toList.take w.start ++ ys ++ xs.toList.drop w.stop ∧
          Bracketed op threshold ht (xs.extract w.start w.stop).toList ys := by
  refine ⟨fun threshold ht xs => ?_, fun tuning xs w hstart hstop threshold n hn hthreshold => ?_⟩
  · exact exists_scanArray (P := fun _ => True) (fun _ _ _ _ => trivial) (fun _ _ _ _ => rfl) ht
      fun _ _ => trivial
  · have hsize : (xs.extract w.start w.stop).size = n := by
      rw [Array.size_extract, hn]
      omega
    rw [← scanThreshold_eq, ← hsize] at hthreshold
    subst hthreshold
    exact ⟨tuning.scanThreshold_pos _, exists_scanWith (P := fun _ => True)
      (fun _ _ _ _ => trivial) (fun _ _ _ _ => rfl) tuning
      (Window.check_eq_ok_iff.2 ⟨hstart, hstop⟩) fun _ _ => trivial⟩

/-- Of seven numbers the brackets are not where a left fold has them. -/
theorem scan_bracketed_sub :
    (∃ report, (scanArray 1 Nat.one_pos #[1, 2, 3, 4, 5, 6, 7]).run
        (fun a b : Int => (.ok (a - b) : Except String Int)) = .ok report ∧
      report.result.toList[6]? = some ((((1 - (2 - 3)) - (4 - 5)) - 6) - 7)) ∧
    ∃ calls values, scanWith ⟨{ val := 1 }, { val := 1 }, { val := 1 }⟩
        (fun a b : Int => (.ok (a - b) : Except String Int)) #[0, 1, 2, 3, 4, 5, 6, 7, 8] ⟨1, 8⟩ =
      .ok ⟨⟨some ((((1 - (2 - 3)) - (4 - 5)) - 6) - 7), values⟩, calls⟩ := by
  have hupTo : upTo 1 Nat.one_pos 7 6 = some (.join (.join (.join (.join (.elem 0)
      (.join (.elem 1) (.elem 2))) (.join (.elem 3) (.elem 4))) (.elem 5)) (.elem 6)) := by
    decide +kernel
  constructor
  · obtain ⟨report, hrun, hys⟩ := (scan_bracketed (ε := String) (fun a b : Int => a - b)).1 1
      Nat.one_pos #[1, 2, 3, 4, 5, 6, 7]
    obtain ⟨g, y, hg, hy, hlast⟩ := hys.value 6 (by decide)
    obtain rfl := Option.some.inj (hupTo.symm.trans hg)
    exact ⟨report, hrun, hlast.trans hy.symm⟩
  · obtain ⟨ht, calls, ys, values, hrun, _, hys⟩ :=
      (scan_bracketed (ε := String) (fun a b : Int => a - b)).2
        ⟨{ val := 1 }, { val := 1 }, { val := 1 }⟩ #[0, 1, 2, 3, 4, 5, 6, 7, 8] ⟨1, 8⟩
        (by decide) (by decide) 1 7 rfl rfl
    obtain ⟨g, y, hg, hy, hlast⟩ := hys.value 6 (by decide)
    obtain rfl := Option.some.inj (hupTo.symm.trans hg)
    have htotal : ys.getLast? = some y := by
      rw [List.getLast?_eq_getElem?, hys.length]
      exact hlast
    rw [htotal, ← hy] at hrun
    exact ⟨calls, values, hrun⟩

end ForkJoin.Scan

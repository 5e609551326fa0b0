import ForkJoin.Proofs.Refusals
import ForkJoin.Proofs.Scan.Ending
import ForkJoin.Proofs.Scan.Prefix
import ForkJoin.Proofs.Sorting.AnyComparator
import ForkJoin.Proofs.Sorting.AnyPolicy
import ForkJoin.Proofs.Sorting.StableSort

/-!
# Requests under every policy

The entry points that name no policy run all visits or tasks by one worker. More workers interleave
them in some other way, and that is another policy. Whichever it is, a scan and a sort return what
one worker returns: `scanUnder_of_scanWith` and `sortUnder_of_sortWith`. So what is known of the
requests to one worker holds of them all. A sort makes the same comparisons, in some other order; a
scan may repeat some of its additions.
-/
namespace ForkJoin

open Calling

variable {α ε : Type}

/-! ## The elements of a window -/

/-- Under every policy a scan leaves the same values, and all operands are elements or sums. -/
theorem Scan.exists_ofWindowUnder (op : α → α → α) {P : α → Prop}
    (hP : ∀ a b, P a → P b → P (op a b)) (tuning : Tuning) (xs : Array α)
    (hxs : ∀ x ∈ xs.toList, P x) : ∃ ys, ∀ policy, ∃ calls,
      Returns op (Scan.ofWindowUnder policy tuning xs) ys calls ∧
        ∀ call ∈ calls, P call.1 ∧ P call.2 := by
  obtain ⟨report, -, hys⟩ := Scan.exists_scanArray (ε := Empty) (f := fun a b => .ok (op a b)) hP
    (fun _ _ _ _ => rfl) (tuning.scanThreshold_pos xs.size) hxs
  exact ⟨_, Scan.exists_scanArrayUnder hP (tuning.scanThreshold_pos xs.size) hxs hys⟩

/-- Under every policy a sort leaves what one worker leaves, with the same comparisons. -/
theorem Sorting.returns_ofWindowUnder {cmp : α → α → Ordering} {tuning : Tuning} {xs ys : Array α}
    {calls : List (α × α)} (hxs : xs.size < 2 ^ 64)
    (h : Returns cmp (Sorting.ofWindow tuning xs) ys calls) (policy : Policy) :
    ∃ made, Returns cmp (Sorting.ofWindowUnder policy tuning xs) ys made ∧ made.Perm calls := by
  rw [Sorting.ofWindow, Sorting.ofWindowUnder] at h
  rw [Sorting.ofWindowUnder]
  cases hg? : tuning.sortGranularity? xs.size with
  | none =>
    rw [hg?] at h
    exact ⟨calls, h, .refl calls⟩
  | some g =>
    have hg := Tuning.sortGranularity?_pos hg?
    rw [hg?, ← Sorting.sortArray, Sorting.sortArray_some hg hxs] at h
    obtain ⟨zs, all, hzs, -⟩ :=
      (Sorting.sortQuarters_perm hg xs.toList).returns (f := cmp) fun _ _ _ => trivial
    obtain ⟨rfl, rfl⟩ := h.unique hzs.map
    obtain ⟨s, T, K, waiting, duties, made, hreturns, hsound⟩ :=
      Sorting.exists_end (ι := Unit) hxs (fun _ => rfl) hzs policy
    refine ⟨made, ?_, Multiset.coe_eq_coe.1 (hsound ()).calls_eq⟩
    rw [Sorting.sortArrayUnder]
    exact (hreturns ()).bind_done (congrArg Calling.done (hsound ()).array_eq)

/-! ## Windows -/

section

variable {xs : Array α} {w : Window} {tuning : Tuning}

/-- **A scan under any policy returns what one worker returns.** The operator need not be
associative, and need not answer but on elements and sums. -/
theorem scanUnder_of_scanWith {op : α → α → α} {P : α → Prop}
    (hP : ∀ a b, P a → P b → P (op a b)) {f : α → α → Except ε α}
    (hf : ∀ a b, P a → P b → f a b = .ok (op a b)) (hw : w.check xs.size = .ok ())
    (hxs : ∀ x ∈ (xs.extract w.start w.stop).toList, P x) {result : Scanned α}
    {calls : Array (α × α)} (h : scanWith tuning f xs w = .ok ⟨result, calls⟩) (policy : Policy) :
    ∃ made, scanUnder policy tuning f xs w = .ok ⟨result, made⟩ := by
  obtain ⟨ys, hys⟩ := Scan.exists_ofWindowUnder op hP tuning _ hxs
  have hrun : ∀ policy, ∃ made, scanUnder policy tuning f xs w =
      .ok ⟨⟨ys.back?, overwrite xs w.start ys.toList⟩, made⟩ := by
    intro policy
    obtain ⟨made, hreturns, hmade⟩ := hys policy
    rw [scanUnder_eq policy tuning f hw, hreturns.run_of_calls fun call hcall =>
      hf _ _ (hmade call hcall).1 (hmade call hcall).2]
    exact ⟨_, rfl⟩
  obtain ⟨alone, halone⟩ := hrun .depthFirst
  obtain ⟨rfl, -⟩ := Report.mk.inj (Except.ok.inj (h.symm.trans halone))
  exact hrun policy

/-- **A sort under any policy returns what one worker returns**, and makes the same comparisons. -/
theorem sortUnder_of_sortWith {cmp : α → α → Ordering} (hsize : xs.size < 2 ^ 64)
    (hw : w.check xs.size = .ok ()) {values : Array α} {calls : Array (α × α)}
    (h : sortWith tuning (fun a b => (.ok (cmp a b) : Except ε Ordering)) xs w =
      .ok ⟨values, calls⟩) (policy : Policy) :
    ∃ made, sortUnder policy tuning (fun a b => (.ok (cmp a b) : Except ε Ordering)) xs w =
      .ok ⟨values, made⟩ ∧ made.toList.Perm calls.toList := by
  have hlt := Sorting.size_extract_lt hsize w.start w.stop
  obtain ⟨ys, alone, halone, -⟩ := Sorting.exists_returns cmp tuning hlt
  obtain ⟨made, hreturns, hperm⟩ := Sorting.returns_ofWindowUnder hlt halone policy
  rw [sortWith_eq tuning _ hw, halone.run] at h
  obtain ⟨rfl, rfl⟩ := Report.mk.inj (Except.ok.inj h)
  refine ⟨made.toArray, ?_, hperm⟩
  rw [sortUnder_eq policy tuning _ hw, hreturns.run]
  rfl

end

/-! ## What holds under every policy -/

/-- **With an associative operator, a scan under any policy leaves the prefix sums.** -/
theorem scanUnder_prefixes {op : α → α → α} {P : α → Prop} (hP : ∀ a b, P a → P b → P (op a b))
    (hassoc : ∀ a b c, P a → P b → P c → op (op a b) c = op a (op b c)) {f : α → α → Except ε α}
    (hf : ∀ a b, P a → P b → f a b = .ok (op a b)) {xs : Array α} {w : Window}
    (hw : w.check xs.size = .ok ()) (hxs : ∀ x ∈ (xs.extract w.start w.stop).toList, P x)
    (policy : Policy) (tuning : Tuning) : ∃ calls ys values,
      scanUnder policy tuning f xs w =
        .ok ⟨⟨Scan.leftFold op (xs.extract w.start w.stop).toList, values⟩, calls⟩ ∧
      values.toList = xs.toList.take w.start ++ ys ++ xs.toList.drop w.stop ∧
      Scan.Prefixes op (xs.extract w.start w.stop).toList ys := by
  obtain ⟨calls, ys, values, hrun, hvalues, hys⟩ := Scan.exists_scanWith hP hf tuning hw hxs
  have hprefixes := hys.prefixes hP hassoc hxs
  rw [hprefixes.getLast?] at hrun
  obtain ⟨made, hmade⟩ := scanUnder_of_scanWith hP hf hw hxs hrun policy
  exact ⟨made, ys, values, hmade, hvalues, hprefixes⟩

section

variable (cmp : α → α → Ordering) {xs : Array α} {w : Window}

/-- **A sort under any policy leaves the stable arrangement.** -/
theorem sortUnder_stable (hw : w.check xs.size = .ok ()) (hsize : xs.size < 2 ^ 64)
    (hcmp : Sorting.TotalPreorderOn cmp (· ∈ (xs.extract w.start w.stop).toList)) (policy : Policy)
    (tuning : Tuning) : ∃ calls ys values,
      sortUnder policy tuning (fun a b => (.ok (cmp a b) : Except ε Ordering)) xs w =
        .ok ⟨values, calls⟩ ∧
      values.toList = xs.toList.take w.start ++ ys ++ xs.toList.drop w.stop ∧
      Sorting.StableArrangement cmp (xs.extract w.start w.stop).toList ys := by
  obtain ⟨calls, ys, values, hrun, hvalues, hys⟩ :=
    Sorting.exists_sortWith_stable (ε := ε) tuning hw hsize hcmp fun _ h => h
  obtain ⟨made, hmade, -⟩ := sortUnder_of_sortWith hsize hw hrun policy
  exact ⟨made, ys, values, hmade, hvalues, hys⟩

/-- **Whatever the comparator, a sort under any policy ends and only moves elements.** -/
theorem sortUnder_moves (hw : w.check xs.size = .ok ()) (hsize : xs.size < 2 ^ 64) (policy : Policy)
    (tuning : Tuning) : ∃ calls values, ∃ (ys : List α) (ps : List Nat),
      sortUnder policy tuning (fun a b => (.ok (cmp a b) : Except ε Ordering)) xs w =
        .ok ⟨values, calls⟩ ∧
      values.toList = xs.toList.take w.start ++ ys ++ xs.toList.drop w.stop ∧
      ps.Perm (List.range' w.start (w.stop - w.start)) ∧ ys.map some = ps.map (xs[·]?) := by
  obtain ⟨calls, ys, values, hrun, hvalues, hys⟩ :=
    Sorting.exists_sortWith_perm (ε := ε) cmp tuning hw hsize
  obtain ⟨ps, hps, hfrom⟩ := Sorting.exists_positions (Window.check_eq_ok_iff.1 hw).2 hys
  obtain ⟨made, hmade, -⟩ := sortUnder_of_sortWith hsize hw hrun policy
  exact ⟨made, values, ys, ps, hmade, hvalues, hps, hfrom⟩

end

/-- **Under any policy a refusal comes to light exactly if a call that is made is refused.** Which
calls a scan makes depends on the policy, so the report it is compared with does, too. -/
theorem surfaces_under_policy {xs : Array α} {w : Window} (hw : w.check xs.size = .ok ())
    (policy : Policy) (tuning : Tuning) :
    (∀ (f : α → α → Except ε α) (g : α → α → α), Extends g f → ∃ report,
      scanUnder policy tuning (fun a b => (.ok (g a b) : Except ε α)) xs w = .ok report ∧
        Surfaces f (scanUnder policy tuning f xs w) report) ∧
    (xs.size < 2 ^ 64 → ∀ (f : α → α → Except ε Ordering) (g : α → α → Ordering), Extends g f →
      ∃ report,
        sortUnder policy tuning (fun a b => (.ok (g a b) : Except ε Ordering)) xs w = .ok report ∧
        Surfaces f (sortUnder policy tuning f xs w) report) := by
  constructor
  · intro f g hfg
    obtain ⟨ys, hys⟩ := Scan.exists_ofWindowUnder g (P := fun _ => True) (fun _ _ _ _ => trivial)
      tuning (xs.extract w.start w.stop) fun _ _ => trivial
    obtain ⟨calls, hreturns, -⟩ := hys policy
    exact surfaces_scanUnder hfg hw hreturns
  · intro hsize f g hfg
    have hlt := Sorting.size_extract_lt hsize w.start w.stop
    obtain ⟨ys, calls, halone, -⟩ := Sorting.exists_returns g tuning hlt
    obtain ⟨made, hreturns, -⟩ := Sorting.returns_ofWindowUnder hlt halone policy
    exact surfaces_sortUnder hfg hw hreturns

end ForkJoin

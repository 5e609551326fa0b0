import ForkJoin.Proofs.Interleaving
import ForkJoin.Proofs.Scan.ClosedForm
import ForkJoin.Proofs.Sorting.DepthFirst

/-!
# Functions that refuse answers

A run stops at the first call that the caller's function refuses. Up to there it is the run under any
function that answers all it is asked and agrees where the other answers, so from the calls of that
run one knows whether a refusal comes to light, and which; and if none does, the two runs are one.
-/
namespace ForkJoin

open Calling

variable {α β γ δ ε : Type}

/-- The one function answers all that it is asked, and as the other does wherever that answers. -/
def Extends (g : α → α → β) (f : α → α → Except ε β) : Prop := ∀ a b r, f a b = .ok r → g a b = r

/-- A run under a function that may refuse answers, beside the report of a run under one that does
not. -/
structure Surfaces (f : α → α → Except ε β) (x : Except (Failure ε) (Report α γ))
    (report : Report α γ) : Prop where
  /-- A refusal comes to light exactly if one of the calls is refused. -/
  raised_iff : (∃ why, x = .error (.raised why)) ↔
    ∃ call ∈ report.calls.toList, ∃ why, f call.1 call.2 = .error why
  /-- It is that of the first call that is refused. -/
  raised : ∀ earlier call later why, report.calls.toList = earlier ++ call :: later →
    (∀ c ∈ earlier, ∃ r, f c.1 c.2 = .ok r) → f call.1 call.2 = .error why →
      x = .error (.raised why)
  /-- If none does, the report is the same. -/
  reported : (∀ why, x ≠ .error (.raised why)) → x = .ok report

/-! ## One computation -/

section

variable {f : α → α → Except ε β} {g : α → α → β} {x : Calling α β γ} {c : γ}
  {made : List (α × α)}

/-- If all calls are answered, the run is the same. -/
theorem Calling.Returns.run_answered (hfg : Extends g f) (h : Returns g x c made)
    (hmade : ∀ call ∈ made, ∃ r, f call.1 call.2 = .ok r) :
    x.run f = .ok ⟨c, made.toArray⟩ := by
  refine h.run_of_calls fun call hcall => ?_
  obtain ⟨r, hr⟩ := hmade call hcall
  rw [hr, hfg _ _ _ hr]

/-- If a call is refused and all before it are answered, its refusal ends the run. -/
theorem Calling.Returns.runFrom_refused (hfg : Extends g f) {earlier later : List (α × α)}
    {call : α × α} {why : ε} (h : Returns g x c (earlier ++ call :: later))
    (hearlier : ∀ call ∈ earlier, ∃ r, f call.1 call.2 = .ok r)
    (hwhy : f call.1 call.2 = .error why) (before : Array (α × α)) :
    x.runFrom f before = .error (.raised why) := by
  induction earlier generalizing x before with
  | nil =>
    cases h with
    | call h => simp only [Calling.runFrom, hwhy]
  | cons first earlier ih =>
    cases h with
    | @call a b next _ _ h =>
      obtain ⟨r, hr⟩ := hearlier (a, b) List.mem_cons_self
      simp only [Calling.runFrom, hr]
      rw [← hfg a b r hr]
      exact ih h (fun call hcall => hearlier call (List.mem_cons_of_mem _ hcall)) _

/-- All calls are answered, or one is the first that is refused. -/
theorem answered_or_refused (f : α → α → Except ε β) (made : List (α × α)) :
    (∀ call ∈ made, ∃ r, f call.1 call.2 = .ok r) ∨
      ∃ earlier call later why, made = earlier ++ call :: later ∧
        (∀ c ∈ earlier, ∃ r, f c.1 c.2 = .ok r) ∧ f call.1 call.2 = .error why := by
  induction made with
  | nil => exact .inl fun call hcall => absurd hcall List.not_mem_nil
  | cons first made ih =>
    cases hfirst : f first.1 first.2 with
    | error why =>
      exact .inr ⟨[], first, made, why, rfl, fun call hcall => absurd hcall List.not_mem_nil, hfirst⟩
    | ok r =>
      rcases ih with hmade | ⟨earlier, call, later, why, rfl, hearlier, hwhy⟩
      · left
        intro call hcall
        rcases List.mem_cons.1 hcall with rfl | hcall
        · exact ⟨r, hfirst⟩
        · exact hmade call hcall
      · right
        refine ⟨first :: earlier, call, later, why, rfl, ?_, hwhy⟩
        intro c hc
        rcases List.mem_cons.1 hc with rfl | hc
        · exact ⟨r, hfirst⟩
        · exact hearlier c hc

/-- **A refusal comes to light exactly if a call that is made is refused.** -/
theorem Calling.Returns.surfaces (hfg : Extends g f) (h : Returns g x c made) :
    Surfaces f (x.run f) ⟨c, made.toArray⟩ := by
  have hraised : ∀ earlier call later why, made = earlier ++ call :: later →
      (∀ c ∈ earlier, ∃ r, f c.1 c.2 = .ok r) → f call.1 call.2 = .error why →
        x.run f = .error (.raised why) := by
    rintro earlier call later why rfl hearlier hwhy
    exact h.runFrom_refused hfg hearlier hwhy #[]
  have hreported : (∀ call ∈ made, ∃ r, f call.1 call.2 = .ok r) →
      x.run f = .ok ⟨c, made.toArray⟩ := h.run_answered hfg
  refine ⟨⟨?_, ?_⟩, hraised, ?_⟩
  · rintro ⟨why, hwhy⟩
    rcases answered_or_refused f made with hmade | ⟨earlier, call, later, why, hmade, _, hcall⟩
    · rw [hreported hmade] at hwhy
      cases hwhy
    · exact ⟨call, hmade ▸ List.mem_append_right _ List.mem_cons_self, why, hcall⟩
  · rintro ⟨call, hmem, why, hcall⟩
    rcases answered_or_refused f made with hmade | ⟨earlier, call, later, why, hmade, hearlier, hwhy⟩
    · obtain ⟨r, hr⟩ := hmade call hmem
      rw [hcall] at hr
      cases hr
    · exact ⟨why, hraised earlier call later why hmade hearlier hwhy⟩
  · intro hnone
    rcases answered_or_refused f made with hmade | ⟨earlier, call, later, why, hmade, hearlier, hwhy⟩
    · exact hreported hmade
    · exact absurd (hraised earlier call later why hmade hearlier hwhy) (hnone why)

/-- What is done with the result does not matter. -/
theorem Surfaces.map {y : Except (Failure ε) (Report α γ)} {report : Report α γ}
    (h : Surfaces f y report) (k : γ → δ) :
    Surfaces f (y.map fun r => (⟨k r.result, r.calls⟩ : Report α δ))
      ⟨k report.result, report.calls⟩ := by
  constructor
  case raised_iff =>
    rw [← h.raised_iff]
    cases y <;> simp [Except.map]
  case raised =>
    intro earlier call later why hcalls hearlier hwhy
    rw [h.raised earlier call later why hcalls hearlier hwhy]
    rfl
  case reported =>
    intro hnone
    rw [h.reported fun why hwhy => hnone why (by rw [hwhy]; rfl)]
    rfl

end

/-! ## Windows -/

section

variable (policy : Policy) (tuning : Tuning) {xs : Array α} {w : Window}

/-- A scan of a window that is part of the array is the scan of its elements. -/
theorem scanUnder_eq (f : α → α → Except ε α) (hw : w.check xs.size = .ok ()) :
    scanUnder policy tuning f xs w =
      ((Scan.ofWindowUnder policy tuning (xs.extract w.start w.stop)).run f).map fun r =>
        ⟨⟨r.result.back?, overwrite xs w.start r.result.toList⟩, r.calls⟩ := by
  rw [scanUnder, hw]
  cases (Scan.ofWindowUnder policy tuning (xs.extract w.start w.stop)).run f <;> rfl

/-- A sort of a window that is part of the array is the sort of its elements. -/
theorem sortUnder_eq (f : α → α → Except ε Ordering) (hw : w.check xs.size = .ok ()) :
    sortUnder policy tuning f xs w =
      ((Sorting.ofWindowUnder policy tuning (xs.extract w.start w.stop)).run f).map fun r =>
        ⟨overwrite xs w.start r.result.toList, r.calls⟩ := by
  rw [sortUnder, hw]
  cases (Sorting.ofWindowUnder policy tuning (xs.extract w.start w.stop)).run f <;> rfl

theorem scanWith_eq (f : α → α → Except ε α) (hw : w.check xs.size = .ok ()) :
    scanWith tuning f xs w =
      ((Scan.ofWindow tuning (xs.extract w.start w.stop)).run f).map fun r =>
        ⟨⟨r.result.back?, overwrite xs w.start r.result.toList⟩, r.calls⟩ :=
  scanUnder_eq .depthFirst tuning f hw

theorem sortWith_eq (f : α → α → Except ε Ordering) (hw : w.check xs.size = .ok ()) :
    sortWith tuning f xs w =
      ((Sorting.ofWindow tuning (xs.extract w.start w.stop)).run f).map fun r =>
        ⟨overwrite xs w.start r.result.toList, r.calls⟩ :=
  sortUnder_eq .depthFirst tuning f hw

variable {policy tuning} {ys : Array α} {calls : List (α × α)}

/-- What is known of the scan of the elements is known of the scan of the window. -/
theorem surfaces_scanUnder {f : α → α → Except ε α} {g : α → α → α} (hfg : Extends g f)
    (hw : w.check xs.size = .ok ())
    (h : Returns g (Scan.ofWindowUnder policy tuning (xs.extract w.start w.stop)) ys calls) :
    ∃ report, scanUnder policy tuning (fun a b => (.ok (g a b) : Except ε α)) xs w = .ok report ∧
      Surfaces f (scanUnder policy tuning f xs w) report := by
  refine ⟨⟨⟨ys.back?, overwrite xs w.start ys.toList⟩, calls.toArray⟩, ?_, ?_⟩
  · rw [scanUnder_eq policy tuning _ hw, h.run]
    rfl
  · rw [scanUnder_eq policy tuning _ hw]
    exact (h.surfaces hfg).map fun ys =>
      (⟨ys.back?, overwrite xs w.start ys.toList⟩ : Scanned α)

/-- What is known of the sort of the elements is known of the sort of the window. -/
theorem surfaces_sortUnder {f : α → α → Except ε Ordering} {g : α → α → Ordering}
    (hfg : Extends g f) (hw : w.check xs.size = .ok ())
    (h : Returns g (Sorting.ofWindowUnder policy tuning (xs.extract w.start w.stop)) ys calls) :
    ∃ report,
      sortUnder policy tuning (fun a b => (.ok (g a b) : Except ε Ordering)) xs w = .ok report ∧
        Surfaces f (sortUnder policy tuning f xs w) report := by
  refine ⟨⟨overwrite xs w.start ys.toList, calls.toArray⟩, ?_, ?_⟩
  · rw [sortUnder_eq policy tuning _ hw, h.run]
    rfl
  · rw [sortUnder_eq policy tuning _ hw]
    exact (h.surfaces hfg).map fun ys => overwrite xs w.start ys.toList

end

/-- An operator that answers all it is asked gets a scan to its end. -/
theorem Scan.exists_returns (op : α → α → α) (tuning : Tuning) (xs : Array α) :
    ∃ ys calls, Returns op (Scan.ofWindow tuning xs) ys calls ∧ ys.size = xs.size := by
  have hscan : (scanAll (tuning.scanThreshold xs.size) (tuning.scanThreshold_pos xs.size)
      xs.toList).Ensures (.on (fun _ => True) op) _ :=
    scanAll_on (fun _ _ _ _ => trivial) fun _ _ => trivial
  obtain ⟨ys, calls, hreturns, hys⟩ := hscan.returns fun _ _ _ => rfl
  refine ⟨ys.toArray, calls, ?_, hys.length⟩
  rw [Scan.ofWindow, Scan.ofWindowUnder, ← Scan.scanArray, Scan.scanArray_eq]
  exact hreturns.map

/-- A comparator that answers all it is asked gets a sort to its end. -/
theorem Sorting.exists_returns (cmp : α → α → Ordering) (tuning : Tuning) {xs : Array α}
    (hxs : xs.size < 2 ^ 64) :
    ∃ ys calls, Returns cmp (Sorting.ofWindow tuning xs) ys calls ∧ ys.size = xs.size := by
  obtain ⟨ys, calls, hreturns, hys⟩ := (Sorting.ofWindow_ensures (K := .any)
    (Q := fun ys => ys.Perm xs.toList) hxs (Sorting.sortShort_perm _)
    (fun g hg => Sorting.sortQuarters_perm hg _) tuning).returns (f := cmp) fun _ _ _ => trivial
  exact ⟨ys, calls, hreturns, hys.length_eq⟩

/-- **A scan or a sort stops with a refusal exactly if its function refuses one of the calls that are
made**, and otherwise it does what it does with any function that refuses none and answers alike. -/
theorem refusals_surface (tuning : Tuning) (xs : Array α) (w : Window) (hstart : w.start ≤ w.stop)
    (hstop : w.stop ≤ xs.size) :
    (∀ (f : α → α → Except ε α) (g : α → α → α), Extends g f → ∃ report,
      scanWith tuning (fun a b => (.ok (g a b) : Except ε α)) xs w = .ok report ∧
        Surfaces f (scanWith tuning f xs w) report) ∧
    (xs.size < 2 ^ 64 → ∀ (f : α → α → Except ε Ordering) (g : α → α → Ordering), Extends g f →
      ∃ report, sortWith tuning (fun a b => (.ok (g a b) : Except ε Ordering)) xs w = .ok report ∧
        Surfaces f (sortWith tuning f xs w) report) := by
  have hw := Window.check_eq_ok_iff.2 ⟨hstart, hstop⟩
  constructor
  · intro f g hfg
    obtain ⟨ys, calls, hreturns, -⟩ := Scan.exists_returns g tuning (xs.extract w.start w.stop)
    exact surfaces_scanUnder hfg hw hreturns
  · intro hxs f g hfg
    have hlt := Sorting.size_extract_lt hxs w.start w.stop
    obtain ⟨ys, calls, hreturns, -⟩ := Sorting.exists_returns g tuning hlt
    exact surfaces_sortUnder hfg hw hreturns

/-- The sum of four numbers is too large, and the comparator does not know where 3 belongs. -/
theorem refusals_surface_four :
    1 ≤ 5 ∧ 5 ≤ #[9, 4, 3, 2, 1, 9].size ∧ #[9, 4, 3, 2, 1, 9].size < 2 ^ 64 ∧
    (∃ report, scanWith ⟨{ val := 2 }, { val := 1 }, { val := 1 }⟩
        (fun a b => (.ok (a + b) : Except String Nat)) #[9, 4, 3, 2, 1, 9] ⟨1, 5⟩ = .ok report ∧
      Surfaces (fun a b : Nat => if a + b < 10 then .ok (a + b) else .error "overflow")
        (scanWith ⟨{ val := 2 }, { val := 1 }, { val := 1 }⟩
          (fun a b => if a + b < 10 then .ok (a + b) else .error "overflow")
          #[9, 4, 3, 2, 1, 9] ⟨1, 5⟩) report) ∧
    ∃ report, sortWith ⟨{ val := 2 }, { val := 1 }, { val := 1 }⟩
        (fun a b => (.ok (compare a b) : Except String Ordering)) #[9, 4, 3, 2, 1, 9] ⟨1, 5⟩ =
          .ok report ∧
      Surfaces (fun a b : Nat => if b = 3 then .error "three" else .ok (compare a b))
        (sortWith ⟨{ val := 2 }, { val := 1 }, { val := 1 }⟩
          (fun a b => if b = 3 then .error "three" else .ok (compare a b))
          #[9, 4, 3, 2, 1, 9] ⟨1, 5⟩) report := by
  have hscan : Extends (fun a b : Nat => a + b)
      (fun a b => if a + b < 10 then .ok (a + b) else .error "overflow") := by
    intro a b r h
    dsimp only at h
    split at h
    · exact Except.ok.inj h
    · cases h
  have hsort : Extends (fun a b : Nat => compare a b)
      (fun a b => if b = 3 then .error "three" else .ok (compare a b)) := by
    intro a b r h
    dsimp only at h
    split at h
    · cases h
    · exact Except.ok.inj h
  have hsize : #[9, 4, 3, 2, 1, 9].size < 2 ^ 64 := by decide
  have hboth := refusals_surface (ε := String) (α := Nat) ⟨{ val := 2 }, { val := 1 }, { val := 1 }⟩
    #[9, 4, 3, 2, 1, 9] ⟨1, 5⟩ (by decide) (by decide)
  exact ⟨by decide, by decide, hsize, hboth.1 _ _ hscan, hboth.2 hsize _ _ hsort⟩

end ForkJoin

import Mathlib.Data.Multiset.UnionInter
import ForkJoin.Proofs.Sorting.Deeds

/-!
# In which order deeds are done

A merge may begin once all that goes into it has been done, and that is all of both runs. `Dated`
says so of the deeds that were done, in their order. `Listed` is about the merges: each deed of a
merge belongs to a trigger and reads only what goes into that, and what hangs on a trigger ends in
one linear merge that reports to the next latch.
-/
namespace ForkJoin.Sorting

open Latch

/-- Nothing is done after what it should precede, and what belongs to a merge is done after all
of both runs was written. -/
def Timely (made : List Latch) (done : List Deed) : Prop :=
  ∀ before u after, done = before ++ u :: after →
    (∀ v ∈ before, ¬ u.latch.Precedes v.latch) ∧
    ∀ id m next, trigger id m next ∈ made → next ∈ u.latch.path →
      trigger id m next ∉ u.latch.path → ∀ b i, (Job.merge m).reads b i →
        ∃ v ∈ before, trigger id m next ∈ v.latch.path ∧ v.job.writes b i

/-- What is known of the order in which the deeds were done. -/
structure Dated (done : List Deed) (waiting : Multiset Latch) (made : List Latch) : Prop where
  known : ∀ u ∈ done, u.latch ∈ made
  /-- While a trigger is waiting, nothing of its merge was done. -/
  early : ∀ u ∈ done, ∀ id m next, trigger id m next ∈ waiting → next ∈ u.latch.path →
    trigger id m next ∈ u.latch.path
  /-- A trigger that waits no more has had all of both runs written. -/
  full : ∀ id m next, trigger id m next ∈ made → trigger id m next ∉ waiting →
    ∀ b i, (Job.merge m).reads b i →
      ∃ v ∈ done, trigger id m next ∈ v.latch.path ∧ v.job.writes b i
  timely : Timely made done

namespace Dated

variable {done : List Deed} {waiting : Multiset Latch} {made : List Latch} {X L : Latch} {job : Job}

/-- Something is done by one that is under way to a latch. -/
theorem concat (h : Dated done waiting made) (hL : L ∈ made)
    (hpath : ∀ Y ∈ L.path, Y ∈ waiting)
    (hready : ∀ id m next, trigger id m next ∈ waiting → next ∈ L.path →
      trigger id m next ∈ L.path) (job : Job) :
    Dated (done ++ [⟨L, job⟩]) waiting made := by
  constructor
  case known =>
    intro u hu
    rcases List.mem_append.1 hu with hu | hu
    · exact h.known u hu
    · obtain rfl := List.mem_singleton.1 hu
      exact hL
  case early =>
    intro u hu
    rcases List.mem_append.1 hu with hu | hu
    · exact h.early u hu
    · obtain rfl := List.mem_singleton.1 hu
      exact hready
  case full =>
    intro id m next hmade hwaiting b i hr
    obtain ⟨v, hv, hT, hw⟩ := h.full id m next hmade hwaiting b i hr
    exact ⟨v, List.mem_append_left _ hv, hT, hw⟩
  case timely =>
    intro before u after heq
    rcases List.eq_nil_or_concat after with rfl | ⟨after, v, rfl⟩
    · obtain ⟨rfl, hu⟩ := List.append_inj' heq rfl
      obtain rfl := (List.cons.inj hu).1
      refine ⟨?_, ?_⟩
      · rintro v hv ⟨id, m, next, hT, hnext, hmem⟩
        exact hmem (h.early v hv id m next (hpath _ hT) hnext)
      · intro id m next hmade hnext hmem
        exact h.full id m next hmade fun hwaiting => hmem (hready id m next hwaiting hnext)
    · rw [List.concat_eq_append, ← List.cons_append, ← List.append_assoc] at heq
      exact h.timely before u after (List.append_inj' heq rfl).1

/-- A latch is made. -/
theorem opened (h : Dated done waiting made) (hup : ∀ id m next, X = trigger id m next →
      ∀ u ∈ done, next ∉ u.latch.path) :
    Dated done (X ::ₘ waiting) (made ++ [X]) := by
  refine ⟨fun u hu => List.mem_append_left _ (h.known u hu), ?_, ?_, ?_⟩
  · intro u hu id m next hT hnext
    rcases Multiset.mem_cons.1 hT with rfl | hT
    · exact absurd hnext (hup id m next rfl u hu)
    · exact h.early u hu id m next hT hnext
  · intro id m next hmade hwaiting
    rw [Multiset.mem_cons, not_or] at hwaiting
    rw [List.mem_append, List.mem_singleton] at hmade
    exact h.full id m next (hmade.resolve_right hwaiting.1) hwaiting.2
  · intro before u after heq
    obtain ⟨horder, hfull⟩ := h.timely before u after heq
    refine ⟨horder, fun id m next hmade hnext hmem => ?_⟩
    rw [List.mem_append, List.mem_singleton] at hmade
    rcases hmade with hmade | rfl
    · exact hfull id m next hmade hnext hmem
    · exact absurd hnext (hup id m next rfl u (heq ▸ by simp))

/-- The last report has come to a latch. -/
theorem told (h : Dated done (X ::ₘ waiting) made) (hfull : ∀ id m next, X = trigger id m next →
      ∀ b i, (Job.merge m).reads b i → ∃ v ∈ done, X ∈ v.latch.path ∧ v.job.writes b i) :
    Dated done waiting made := by
  refine ⟨h.known, ?_, ?_, h.timely⟩
  · intro u hu id m next hT
    exact h.early u hu id m next (Multiset.mem_cons_of_mem hT)
  · intro id m next hmade hwaiting
    by_cases hX : X = trigger id m next
    · subst hX
      exact hfull id m next rfl
    · exact h.full id m next hmade fun hmem =>
        (Multiset.mem_cons.1 hmem).elim (fun heq => hX heq.symm) hwaiting

end Dated

/-! ## The deeds of a merge -/

/-- The latch to which a linear merge is reported. -/
def Deed.merging (u : Deed) : Option Latch :=
  match u.job with
  | .merge _ => some u.latch
  | _ => none

theorem Deed.merging_eq_none {u : Deed} (h : ¬ u.job.Merges) : u.merging = none := by
  rw [merging]
  split
  · rename_i heq
    rw [heq] at h
    exact absurd trivial h
  · rfl

/-- A merge of the first elements of the runs of another, or of all of them. -/
def Merge.IsHead (m' m : Merge) : Prop :=
  ∃ ln ≤ m.left.len, ∃ rn ≤ m.right.len, m' = m.head ln rn

theorem Merge.isHead_refl (m : Merge) : m.IsHead m :=
  ⟨m.left.len, Nat.le_refl _, m.right.len, Nat.le_refl _, rfl⟩

theorem Merge.IsHead.head {m' m : Merge} (h : m'.IsHead m) {lh rh : Nat} (hl : lh ≤ m'.left.len)
    (hr : rh ≤ m'.right.len) : (m'.head lh rh).IsHead m := by
  obtain ⟨ln, hln, rn, hrn, rfl⟩ := h
  exact ⟨lh, Nat.le_trans hl hln, rh, Nat.le_trans hr hrn, rfl⟩

/-- What is known of the merges among what was done and what is to be done. -/
structure Listed (entire : Multiset Deed) (made : List Latch) : Prop where
  /-- What belongs to a merge reads what goes into its trigger. -/
  belongs : ∀ u ∈ entire, u.job.Merges → ∃ id m next, trigger id m next ∈ made ∧
    next ∈ u.latch.path ∧ trigger id m next ∉ u.latch.path ∧
    ∀ b i, u.job.reads b i → (Job.merge m).reads b i
  /-- No two linear merges are reported to one latch. -/
  once : (entire.filterMap Deed.merging).Nodup
  each : ∀ id m next, trigger id m next ∈ made → next ∈ entire.filterMap Deed.merging
  /-- A linear merge starts where the merge starts that its trigger has. -/
  heads : ∀ u ∈ entire, ∀ m', u.job = .merge m' → ∀ id m, trigger id m u.latch ∈ made →
    m'.IsHead m
  /-- What belongs to a merge writes all of its target. -/
  covers : ∀ id m next, trigger id m next ∈ made → ∀ b i, (Job.merge m).writes b i →
    ∃ u ∈ entire, next ∈ u.latch.path ∧ trigger id m next ∉ u.latch.path ∧ u.job.writes b i

namespace Listed

variable {entire news : Multiset Deed} {made fresh : List Latch} {extra : Multiset Latch}
  {d : Deed}

/-- A deed is replaced by others, which do no more and whose paths go by its latch. Besides those
that were reported there before, linear merges are reported to new latches only. -/
theorem replace (h : Listed (d ::ₘ entire) made) (size : Nat) (hmade : ∀ X ∈ made, X.id < size)
    (hold : ∀ u ∈ d ::ₘ entire, u.latch.id < size) (hinside : ∀ u ∈ news, u.job.Inside d.job)
    (habove : ∀ u ∈ news, ∀ Y ∈ d.latch.path, Y ∈ u.latch.path)
    (hnew : ∀ u ∈ news, ∀ Y ∈ u.latch.path, Y ∈ d.latch.path ∨ size ≤ Y.id)
    (hbelongs : ∀ u ∈ news, u.job.Merges → d.job.Merges ∨
      ∃ id m next, trigger id m next ∈ fresh ∧ next ∈ u.latch.path ∧
        trigger id m next ∉ u.latch.path ∧ ∀ b i, u.job.reads b i → (Job.merge m).reads b i)
    (hmerging : news.filterMap Deed.merging = ({d} : Multiset Deed).filterMap Deed.merging + extra)
    (hextra : extra.Nodup) (hids : ∀ X ∈ extra, size ≤ X.id)
    (hfresh : ∀ id m next, trigger id m next ∈ fresh → next ∈ extra ∧
      ∀ b i, (Job.merge m).writes b i → ∃ u ∈ news, next ∈ u.latch.path ∧
        trigger id m next ∉ u.latch.path ∧ u.job.writes b i)
    (hheads : ∀ u ∈ news, ∀ m', u.job = .merge m' → ∀ id m, trigger id m u.latch ∈ made ++ fresh →
      m'.IsHead m)
    (hcovers : ∀ b i, d.job.writes b i → ∃ u ∈ news, u.job.writes b i) :
    Listed (news + entire) (made ++ fresh) := by
  have hall : (news + entire).filterMap Deed.merging =
      extra + (d ::ₘ entire).filterMap Deed.merging := by
    rw [Multiset.filterMap_add, hmerging, ← Multiset.singleton_add, Multiset.filterMap_add,
      Multiset.add_comm _ extra, Multiset.add_assoc]
  -- a trigger that was there before is not on the path of what is new
  have hnotin : ∀ u ∈ news, ∀ X ∈ made, X ∉ d.latch.path → X ∉ u.latch.path := by
    intro u hu X hX hmem hmem'
    exact (hnew u hu X hmem').elim hmem fun hle => absurd (hmade X hX) (Nat.not_lt.2 hle)
  constructor
  case belongs =>
    intro u hu hm
    rcases Multiset.mem_add.1 hu with hu | hu
    · rcases hbelongs u hu hm with hd | ⟨id, m, next, hT, hnext, hmem, hreads⟩
      · obtain ⟨id, m, next, hT, hnext, hmem, hreads⟩ :=
          h.belongs d (Multiset.mem_cons_self d entire) hd
        exact ⟨id, m, next, List.mem_append_left _ hT, habove u hu _ hnext, hnotin u hu _ hT hmem,
          fun b i hr => hreads b i ((hinside u hu).reads b i hr)⟩
      · exact ⟨id, m, next, List.mem_append_right _ hT, hnext, hmem, hreads⟩
    · obtain ⟨id, m, next, hT, hrest⟩ := h.belongs u (Multiset.mem_cons_of_mem hu) hm
      exact ⟨id, m, next, List.mem_append_left _ hT, hrest⟩
  case once =>
    rw [hall, Multiset.nodup_add]
    refine ⟨hextra, h.once, Multiset.disjoint_left.2 fun {X} hX hX' => ?_⟩
    obtain ⟨u, hu, hmerge⟩ := (Multiset.mem_filterMap _ _).1 hX'
    have hlatch : u.latch = X := by
      rw [Deed.merging] at hmerge
      split at hmerge
      · exact Option.some.inj hmerge
      · cases hmerge
    exact absurd (hold u hu) (Nat.not_lt.2 (hlatch ▸ hids X hX))
  case each =>
    intro id m next hT
    rw [hall, Multiset.mem_add]
    rcases List.mem_append.1 hT with hT | hT
    · exact .inr (h.each id m next hT)
    · exact .inl (hfresh id m next hT).1
  case heads =>
    intro u hu m' hm' id m hT
    rcases Multiset.mem_add.1 hu with hu | hu
    · exact hheads u hu m' hm' id m hT
    · have hu' := Multiset.mem_cons_of_mem (b := d) hu
      rcases List.mem_append.1 hT with hT | hT
      · exact h.heads u hu' m' hm' id m hT
      · exact absurd (hold u hu') (Nat.not_lt.2 (hids _ (hfresh id m _ hT).1))
  case covers =>
    intro id m next hT b i hw
    rcases List.mem_append.1 hT with hT | hT
    · obtain ⟨u, hu, hnext, hmem, hwrites⟩ := h.covers id m next hT b i hw
      rcases Multiset.mem_cons.1 hu with rfl | hu
      · obtain ⟨v, hv, hwrites'⟩ := hcovers b i hwrites
        exact ⟨v, Multiset.mem_add.2 (.inl hv), habove v hv _ hnext, hnotin v hv _ hT hmem, hwrites'⟩
      · exact ⟨u, Multiset.mem_add.2 (.inr hu), hnext, hmem, hwrites⟩
    · obtain ⟨u, hu, hrest⟩ := (hfresh id m next hT).2 b i hw
      exact ⟨u, Multiset.mem_add.2 (.inl hu), hrest⟩

end Listed

end ForkJoin.Sorting

import ForkJoin.Proofs.Sorting.Supplies

/-!
# How duties come apart

The sort of a long span comes apart into two pairs of quarters and the merge of what they give, a
pair of quarters into two sorts and their merge. A merge of long runs comes apart at a cut. Each
time the parts keep to the positions of the whole, and do together what it was to do.
-/
namespace ForkJoin.Sorting

open Calling Latch

variable {α : Type} {g : Nat} {hg : 0 < g} {cmp : α → α → Ordering} {d d₁ d₂ e : Duty α}
  {start len scratch p r : Nat}

/-! ## Positions -/

/-- The sort of a part of a span keeps to the span. -/
theorem sort_inside {k n : Nat} (h : k + n ≤ len) :
    (Job.sort ⟨start + k, n⟩ ⟨scratch + k, n⟩).Inside (.sort ⟨start, len⟩ ⟨scratch, len⟩) := by
  constructor <;> intro b i hi <;> cases b <;>
    simp only [Job.reads, Job.writes, Span.mem_iff, Span.stop] at hi ⊢ <;> omega

theorem pairMerge_inside :
    (Job.merge (pairMerge start scratch p r)).Inside (.sort ⟨start, p + r⟩ ⟨scratch, p + r⟩) := by
  constructor
  · rintro _ i ⟨rfl, hi⟩
    simp only [pairMerge, Job.reads, Span.mem_iff, Span.stop] at hi ⊢
    omega
  · rintro _ i ⟨rfl, hi⟩
    exact hi

theorem halvesMerge_inside (h : p + r = len) :
    (Job.merge (halvesMerge start scratch p r)).Inside (.sort ⟨start, len⟩ ⟨scratch, len⟩) := by
  subst h
  constructor
  · rintro _ i ⟨rfl, hi⟩
    simp only [halvesMerge, Job.reads, Span.mem_iff, Span.stop] at hi ⊢
    omega
  · rintro _ i ⟨rfl, hi⟩
    exact hi

/-- The sorts of two parts, one behind the other, do not meet. -/
theorem sort_apart {k n k' n' : Nat} (h : k + n ≤ k') :
    (Job.sort ⟨start + k, n⟩ ⟨scratch + k, n⟩).Apart
      (.sort ⟨start + k', n'⟩ ⟨scratch + k', n'⟩) := by
  constructor <;> intro b i hi hi' <;> cases b <;>
    simp only [Job.reads, Job.writes, Span.mem_iff, Span.stop] at hi hi' <;> omega

/-- Together they write all of the span. -/
theorem sort_covers {k n : Nat} (h : k + n = len) (b : Buffer) (i : Nat)
    (hi : (Job.sort ⟨start, len⟩ ⟨scratch, len⟩).writes b i) :
    (Job.sort ⟨start + 0, k⟩ ⟨scratch + 0, k⟩).writes b i ∨
      (Job.sort ⟨start + k, n⟩ ⟨scratch + k, n⟩).writes b i := by
  cases b <;> simp only [Job.writes, Span.mem_iff, Span.stop] at hi ⊢ <;> omega

/-! ## Parts of a duty -/

namespace Duty

section

variable (d : Duty α) (m : Merge) (out : List α) (calls : List (α × α))

/-- The lower half of a long span, as a pair of quarters. -/
def lower (start len scratch : Nat) : Duty α where
  latch := d.latch
  plan := .pair start scratch (len / 2 / 2) (len / 2 - len / 2 / 2)
  left := d.left.take (len / 2 / 2)
  right := (d.left.drop (len / 2 / 2)).take (len / 2 - len / 2 / 2)
  out := out
  calls := calls

/-- The upper half of a long span, as a pair of quarters. -/
def upper (start len scratch : Nat) : Duty α where
  latch := d.latch
  plan := .pair (start + len / 2) (scratch + len / 2) (len / 2 / 2) (len - len / 2 - len / 2 / 2)
  left := (d.left.drop (len / 2)).take (len / 2 / 2)
  right := d.left.drop (len / 2 + len / 2 / 2)
  out := out
  calls := calls

/-- One quarter of a pair, with these elements. -/
def quarter (start len scratch : Nat) (xs : List α) : Duty α where
  latch := d.latch
  plan := .sort start len scratch
  left := xs
  right := []
  out := out
  calls := calls

/-- The merge of what two others give; it gives what the whole is to give. -/
def merging (left right : List α) : Duty α where
  latch := d.latch
  plan := .merge m
  left := left
  right := right
  out := d.out
  calls := calls

/-- The merge before a cut. -/
def head (lh rh : Nat) : Duty α where
  latch := d.latch
  plan := .merge (m.head lh rh)
  left := d.left.take lh
  right := d.right.take rh
  out := out
  calls := calls

/-- The merge behind a cut. -/
def tail (lh rh : Nat) : Duty α where
  latch := d.latch
  plan := .merge (m.tail m.left.len m.right.len lh rh)
  left := d.left.drop lh
  right := d.right.drop rh
  out := out
  calls := calls

end

variable {m : Merge} {xs out : List α} {calls : List (α × α)} {lh rh : Nat} {b : Buffer} {i : Nat}
  {v : α}

theorem valid_lower (start scratch : Nat) (hlen : d.left.length = len)
    (h : Returns cmp (sortPair g hg (d.left.take (len / 2 / 2))
      ((d.left.drop (len / 2 / 2)).take (len / 2 - len / 2 / 2))) out calls) :
    (d.lower out calls start len scratch).Valid g hg cmp := by
  refine ⟨?_, ?_, h⟩
  · simp only [lower, Plan.left, List.length_take]
    omega
  · simp only [lower, Plan.right, List.length_take, List.length_drop]
    omega

theorem valid_upper (start scratch : Nat) (hlen : d.left.length = len)
    (h : Returns cmp (sortPair g hg ((d.left.drop (len / 2)).take (len / 2 / 2))
      (d.left.drop (len / 2 + len / 2 / 2))) out calls) :
    (d.upper out calls start len scratch).Valid g hg cmp := by
  refine ⟨?_, ?_, h⟩
  · simp only [upper, Plan.left, List.length_take, List.length_drop]
    omega
  · simp only [upper, Plan.right, List.length_drop]
    omega

theorem job_lower : (d.lower out calls start len scratch).plan.job =
    .sort ⟨start + 0, len / 2⟩ ⟨scratch + 0, len / 2⟩ := by
  have hlen : len / 2 / 2 + (len / 2 - len / 2 / 2) = len / 2 := by omega
  simp only [lower, Plan.job, hlen, Nat.add_zero]

theorem job_upper : (d.upper out calls start len scratch).plan.job =
    .sort ⟨start + len / 2, len - len / 2⟩ ⟨scratch + len / 2, len - len / 2⟩ := by
  have hlen : len / 2 / 2 + (len - len / 2 - len / 2 / 2) = len - len / 2 := by omega
  simp only [upper, Plan.job, hlen]

theorem takes_of_lower (hplan : d.plan = .sort start len scratch)
    (h : (d.lower out calls start len scratch).takes b i v) : d.takes b i v := by
  obtain ⟨rfl, hv⟩ := h
  rw [takes, hplan]
  exact ⟨rfl, .inl (hv.elim Lays.of_take fun hv => hv.of_take.of_drop)⟩

theorem takes_of_upper (hplan : d.plan = .sort start len scratch)
    (h : (d.upper out calls start len scratch).takes b i v) : d.takes b i v := by
  obtain ⟨rfl, hv⟩ := h
  rw [takes, hplan]
  refine ⟨rfl, .inl (hv.elim (fun hv => hv.of_take.of_drop) fun hv => ?_)⟩
  refine Lays.of_drop (k := len / 2 + len / 2 / 2) ?_
  rwa [← Nat.add_assoc]

theorem valid_quarter (start scratch : Nat) (hlen : xs.length = len)
    (h : Returns cmp (sortQuarters g hg xs) out calls) :
    (d.quarter out calls start len scratch xs).Valid g hg cmp := ⟨hlen, rfl, h⟩

theorem valid_head (hleft : d.left.length = m.left.len) (hright : d.right.length = m.right.len)
    (hl : lh ≤ m.left.len) (hr : rh ≤ m.right.len)
    (h : Returns cmp (splitMerge g (d.left.take lh) (d.right.take rh)) out calls) :
    (d.head m out calls lh rh).Valid g hg cmp := by
  refine ⟨?_, ?_, h⟩
  · simp only [head, Plan.left, Merge.head, List.length_take]
    omega
  · simp only [head, Plan.right, Merge.head, List.length_take]
    omega

theorem valid_tail (hleft : d.left.length = m.left.len) (hright : d.right.length = m.right.len)
    (h : Returns cmp (splitMerge g (d.left.drop lh) (d.right.drop rh)) out calls) :
    (d.tail m out calls lh rh).Valid g hg cmp := by
  refine ⟨?_, ?_, h⟩
  · simp only [tail, Plan.left, Merge.tail, List.length_drop]
    omega
  · simp only [tail, Plan.right, Merge.tail, List.length_drop]
    omega

end Duty

/-! ## Sorts -/

/-- Two duties that do not meet, and a merge of what they give. -/
structure Branch (g : Nat) (hg : 0 < g) (cmp : α → α → Ordering) (d d₁ d₂ e : Duty α) (m : Merge) :
    Prop where
  valid₁ : d₁.Valid g hg cmp
  valid₂ : d₂.Valid g hg cmp
  valid : e.Valid g hg cmp
  sorts : ¬ d.plan.job.Merges
  sorts₁ : ¬ d₁.plan.job.Merges
  sorts₂ : ¬ d₂.plan.job.Merges
  merges : e.plan = .merge m
  within : ∀ n, d.plan.job.Within n →
    d₁.plan.job.Within n ∧ d₂.plan.job.Within n ∧ e.plan.job.Within n
  inside₁ : d₁.plan.job.Inside d.plan.job
  inside₂ : d₂.plan.job.Inside d.plan.job
  inside : e.plan.job.Inside d.plan.job
  covers : ∀ b i, d.plan.job.writes b i → d₁.plan.job.writes b i ∨ d₂.plan.job.writes b i
  apart : d₁.plan.job.Apart d₂.plan.job
  takes₁ : ∀ b i v, d₁.takes b i v → d.takes b i v
  takes₂ : ∀ b i v, d₂.takes b i v → d.takes b i v
  supplies : ∀ b i v, e.takes b i v → d₁.gives b i v ∨ d₂.gives b i v
  gives : ∀ b i v, d.gives b i v → e.gives b i v
  calls : d.calls = d₁.calls ++ d₂.calls ++ e.calls

/-- **The sort of a long span** comes apart into its halves. -/
theorem exists_branch_sort (hd : d.Valid g hg cmp) (hplan : d.plan = .sort start len scratch)
    (hlong : g < len) : ∃ d₁ d₂ e,
      Branch g hg cmp d d₁ d₂ e (halvesMerge start scratch (len / 2) (len - len / 2)) ∧
      d₁.plan = .pair start scratch (len / 2 / 2) (len / 2 - len / 2 / 2) ∧
      d₂.plan = .pair (start + len / 2) (scratch + len / 2) (len / 2 / 2)
        (len - len / 2 - len / 2 / 2) := by
  have hlen := hd.left
  have hscript := hd.script
  rw [hplan] at hlen hscript
  simp only [Plan.left] at hlen
  simp only [Plan.script] at hscript
  rw [sortQuarters_split (by rwa [hlen]), hlen] at hscript
  obtain ⟨lower, calls₁, _, hlower, hscript, hcalls⟩ := hscript.of_bind
  obtain ⟨upper, calls₂, calls₃, hupper, hmerge, rfl⟩ := hscript.of_bind
  have hvalid₁ := Duty.valid_lower start scratch hlen hlower
  have hvalid₂ := Duty.valid_upper start scratch hlen hupper
  have hout₁ : lower.length = len / 2 := by
    have := hvalid₁.length_out
    simp only [Duty.lower, Plan.target] at this
    omega
  have hout₂ : upper.length = len - len / 2 := by
    have := hvalid₂.length_out
    simp only [Duty.upper, Plan.target] at this
    omega
  have hjob : d.plan.job = .sort ⟨start, len⟩ ⟨scratch, len⟩ := by rw [hplan]; rfl
  refine ⟨_, _, d.merging (halvesMerge start scratch (len / 2) (len - len / 2)) calls₃ lower upper,
    { valid₁ := hvalid₁, valid₂ := hvalid₂, valid := ⟨hout₁, hout₂, hmerge⟩,
      sorts := by rw [hjob]; exact id, sorts₁ := id, sorts₂ := id, merges := rfl, within := ?within,
      inside₁ := ?inside₁, inside₂ := ?inside₂, inside := ?inside, covers := ?covers,
      apart := ?apart, takes₁ := fun _ _ _ => Duty.takes_of_lower hplan,
      takes₂ := fun _ _ _ => Duty.takes_of_upper hplan, supplies := ?supplies, gives := ?gives,
      calls := ?calls }, rfl, rfl⟩
  case within =>
    intro n hn
    rw [hjob] at hn
    rw [Duty.job_lower, Duty.job_upper]
    simp only [Duty.merging, Plan.job, Job.Within, halvesMerge, Merge.target, Span.stop] at hn ⊢
    omega
  case inside₁ =>
    rw [hjob, Duty.job_lower]
    exact sort_inside (by omega)
  case inside₂ =>
    rw [hjob, Duty.job_upper]
    exact sort_inside (by omega)
  case inside =>
    rw [hjob]
    exact halvesMerge_inside (by omega)
  case covers =>
    rw [hjob, Duty.job_lower, Duty.job_upper]
    exact sort_covers (by omega)
  case apart =>
    rw [Duty.job_lower, Duty.job_upper]
    exact sort_apart (by omega)
  case supplies =>
    rintro b i v ⟨rfl, hv⟩
    exact hv.imp (fun hv => ⟨rfl, hv⟩) fun hv => ⟨rfl, hv⟩
  case gives =>
    intro b i v hv
    rw [Duty.gives, hplan] at hv
    exact hv
  case calls =>
    rw [hcalls, List.append_assoc]
    rfl

/-- **A pair of quarters** comes apart into the quarters. -/
theorem exists_branch_pair (hd : d.Valid g hg cmp) (hplan : d.plan = .pair start scratch p r) :
    ∃ d₁ d₂ e, Branch g hg cmp d d₁ d₂ e (pairMerge start scratch p r) ∧
      d₁.plan = .sort start p scratch ∧ d₂.plan = .sort (start + p) r (scratch + p) := by
  have hleft := hd.left
  have hright := hd.right
  have hscript := hd.script
  rw [hplan] at hleft hright hscript
  simp only [Plan.left, Plan.right] at hleft hright
  simp only [Plan.script, sortPair] at hscript
  obtain ⟨first, calls₁, _, hfirst, hscript, hcalls⟩ := hscript.of_bind
  obtain ⟨second, calls₂, calls₃, hsecond, hmerge, rfl⟩ := hscript.of_bind
  have hvalid₁ := Duty.valid_quarter (d := d) start scratch hleft hfirst
  have hvalid₂ := Duty.valid_quarter (d := d) (start + p) (scratch + p) hright hsecond
  have hjob : d.plan.job = .sort ⟨start, p + r⟩ ⟨scratch, p + r⟩ := by rw [hplan]; rfl
  have hnone : ∀ {a i : Nat} {v : α}, ¬ Lays a [] i v := fun h => by cases h.2
  refine ⟨_, _, d.merging (pairMerge start scratch p r) calls₃ first second,
    { valid₁ := hvalid₁, valid₂ := hvalid₂,
      valid := ⟨hvalid₁.length_out, hvalid₂.length_out, hmerge⟩, sorts := by rw [hjob]; exact id,
      sorts₁ := id, sorts₂ := id, merges := rfl, within := ?within, inside₁ := ?inside₁,
      inside₂ := ?inside₂, inside := ?inside, covers := ?covers, apart := ?apart,
      takes₁ := ?takes₁, takes₂ := ?takes₂, supplies := ?supplies, gives := ?gives,
      calls := ?calls }, rfl, rfl⟩
  case within =>
    intro n hn
    rw [hjob] at hn
    simp only [Duty.quarter, Duty.merging, Plan.job, Job.Within, pairMerge, Merge.target,
      Span.stop] at hn ⊢
    omega
  case inside₁ =>
    rw [hjob]
    exact sort_inside (k := 0) (by omega)
  case inside₂ =>
    rw [hjob]
    exact sort_inside (by omega)
  case inside =>
    rw [hjob]
    exact pairMerge_inside
  case covers =>
    rw [hjob]
    exact sort_covers rfl
  case apart => exact sort_apart (k := 0) (by omega)
  case takes₁ =>
    rintro b i v ⟨rfl, hv⟩
    rw [Duty.takes, hplan]
    exact ⟨rfl, .inl (hv.resolve_right hnone)⟩
  case takes₂ =>
    rintro b i v ⟨rfl, hv⟩
    rw [Duty.takes, hplan]
    exact ⟨rfl, .inr (hv.resolve_right hnone)⟩
  case supplies =>
    rintro b i v ⟨rfl, hv⟩
    exact hv.imp (fun hv => ⟨rfl, hv⟩) fun hv => ⟨rfl, hv⟩
  case gives =>
    intro b i v hv
    rw [Duty.gives, hplan] at hv
    exact hv
  case calls =>
    rw [hcalls, List.append_assoc]
    rfl

/-! ## New latches -/

/-- A duty whose end is reported to another latch. -/
def Duty.to (d : Duty α) (X : Latch) : Duty α := { d with latch := X }

theorem Duty.Valid.to (h : d.Valid g hg cmp) (X : Latch) : (d.to X).Valid g hg cmp :=
  ⟨h.left, h.right, h.script⟩

section

variable {n size : Nat} {m : Merge} {X Y : Latch}

/-- A report to a new part passes the part itself, and then the latches that reports to its whole
pass. -/
theorem part_new (hY : Y ∈ (Latch.part size X).path) (k : Nat) :
    Y ∈ X.path ∨ size ≤ Y.id ∧ Y.id < size + (k + 1) := by
  rcases mem_path_part.1 hY with rfl | hY
  · exact .inr ⟨Nat.le_refl size, by simp [Latch.id]⟩
  · exact .inl hY

/-- A report to a new trigger passes two new latches, and then the latches that reports to its whole
pass. -/
theorem trigger_new (hY : Y ∈ (triggerAt size m X).path) :
    Y ∈ X.path ∨ size ≤ Y.id ∧ Y.id < size + 2 := by
  rcases mem_path_trigger.1 hY with rfl | hY
  · exact .inr ⟨Nat.le_succ size, Nat.lt_succ_self (size + 1)⟩
  · exact part_new hY 1

theorem triggerAt_precedes (hids : ∀ Y ∈ X.path, Y.id < size) :
    (triggerAt size m X).Precedes (.part size X) := by
  refine ⟨size + 1, m, .part size X, self_mem_path _, self_mem_path _, fun hmem => ?_⟩
  rcases mem_path_part.1 hmem with heq | hmem
  · cases heq
  · exact absurd (hids _ hmem) (by simp [Latch.id])

theorem entire_to (d : Duty α) (X : Latch) : entire {d.to X} [] = {⟨X, d.plan.job⟩} := by
  rw [entire, Multiset.map_singleton, Multiset.coe_nil, add_zero]
  rfl

theorem forall_to {P : Deed → Prop} (h : P ⟨X, d.plan.job⟩) :
    ∀ u ∈ entire {d.to X} [], P u := by
  intro u hu
  rw [entire_to, Multiset.mem_singleton] at hu
  rwa [hu]

/-- A duty may be reported to a new part of its latch. -/
theorem refines_part (hd : d.Valid g hg cmp) (hwithin : d.plan.job.Within n) :
    Refines g hg cmp n size (size + 1) d {d.to (.part size d.latch)} [] [] := by
  constructor
  case valid =>
    intro e he
    rw [Multiset.mem_singleton.1 he]
    exact hd.to _
  case within => exact forall_to hwithin
  case inside => exact forall_to (.refl _)
  case compatible =>
    rw [entire_to, ← Multiset.cons_zero, pairwise_cons]
    exact ⟨fun u hu => absurd hu (Multiset.notMem_zero u), Multiset.pairwise_zero _⟩
  case above => exact forall_to fun Y hY => mem_path_part.2 (.inr hY)
  case new => exact forall_to fun Y hY => part_new hY 0
  case covers =>
    intro b i hi
    rw [entire_to]
    exact ⟨_, Multiset.mem_singleton_self _, hi⟩
  case gives =>
    intro b i v hv
    exact ⟨_, Multiset.mem_singleton_self _, rfl, hv⟩
  case calls =>
    rw [Multiset.coe_nil, zero_add, Multiset.map_singleton, Multiset.sum_singleton]
    rfl

/-- The duties into which a duty comes apart, with the trigger of the merge. -/
def branches (size : Nat) (d d₁ d₂ e : Duty α) (m : Merge) : Multiset (Duty α) :=
  {d₁.to (triggerAt size m d.latch), d₂.to (triggerAt size m d.latch), e.to (.part size d.latch)}

theorem entire_branches : entire (branches size d d₁ d₂ e m) [] =
    {⟨triggerAt size m d.latch, d₁.plan.job⟩, ⟨triggerAt size m d.latch, d₂.plan.job⟩,
      ⟨.part size d.latch, e.plan.job⟩} := by
  simp only [entire, branches, Multiset.insert_eq_cons, Multiset.map_cons, Multiset.map_singleton,
    Multiset.coe_nil, add_zero]
  rfl

theorem forall_branches {P : Deed → Prop}
    (h₁ : P ⟨triggerAt size m d.latch, d₁.plan.job⟩)
    (h₂ : P ⟨triggerAt size m d.latch, d₂.plan.job⟩)
    (h : P ⟨.part size d.latch, e.plan.job⟩) :
    ∀ u ∈ entire (branches size d d₁ d₂ e m) [], P u := by
  intro u hu
  rw [entire_branches] at hu
  simp only [Multiset.insert_eq_cons, Multiset.mem_cons, Multiset.mem_singleton] at hu
  rcases hu with rfl | rfl | rfl
  · exact h₁
  · exact h₂
  · exact h

/-- A duty may come apart into two that trigger a merge. -/
theorem Branch.refines (h : Branch g hg cmp d d₁ d₂ e m) (hwithin : d.plan.job.Within n)
    (hids : ∀ Y ∈ d.latch.path, Y.id < size) :
    Refines g hg cmp n size (size + 2) d (branches size d d₁ d₂ e m) [] [] := by
  have habove : ∀ Y ∈ d.latch.path, Y ∈ (triggerAt size m d.latch).path := fun Y hY =>
    mem_path_trigger.2 (.inr (mem_path_part.2 (.inr hY)))
  have hprecedes : (triggerAt size m d.latch).Precedes (.part size d.latch) :=
    triggerAt_precedes hids
  obtain ⟨hwithin₁, hwithin₂, hwithin'⟩ := h.within n hwithin
  constructor
  case valid =>
    intro x hx
    simp only [branches, Multiset.insert_eq_cons, Multiset.mem_cons, Multiset.mem_singleton] at hx
    rcases hx with rfl | rfl | rfl
    · exact h.valid₁.to _
    · exact h.valid₂.to _
    · exact h.valid.to _
  case within => exact forall_branches hwithin₁ hwithin₂ hwithin'
  case inside => exact forall_branches h.inside₁ h.inside₂ h.inside
  case compatible =>
    rw [entire_branches, Multiset.insert_eq_cons, Multiset.insert_eq_cons, pairwise_cons,
      pairwise_cons, ← Multiset.cons_zero, pairwise_cons]
    refine ⟨fun u hu => ?_, fun u hu => ?_, fun u hu => absurd hu (Multiset.notMem_zero u),
      Multiset.pairwise_zero _⟩
    · rcases Multiset.mem_cons.1 hu with rfl | hu
      · exact .inl h.apart
      · rw [Multiset.mem_singleton.1 hu]
        exact .inr (.inl hprecedes)
    · rw [Multiset.mem_singleton.1 hu]
      exact .inr (.inl hprecedes)
  case above => exact forall_branches habove habove fun Y hY => mem_path_part.2 (.inr hY)
  case new =>
    exact forall_branches (fun Y => trigger_new) (fun Y => trigger_new) fun Y hY => part_new hY 1
  case covers =>
    intro b i hi
    rw [entire_branches]
    rcases h.covers b i hi with hi | hi
    · exact ⟨⟨triggerAt size m d.latch, d₁.plan.job⟩, by simp, hi⟩
    · exact ⟨⟨triggerAt size m d.latch, d₂.plan.job⟩, by simp, hi⟩
  case gives =>
    intro b i v hv
    exact ⟨e.to (.part size d.latch), by simp [branches], rfl, h.gives b i v hv⟩
  case calls =>
    rw [h.calls]
    simp only [branches, Multiset.insert_eq_cons, Multiset.map_cons, Multiset.map_singleton,
      Multiset.sum_cons, Multiset.sum_singleton, Multiset.coe_nil, zero_add, ← Multiset.coe_add,
      add_assoc]
    rfl

variable {duties duties' : Multiset (Duty α)} {done done' : List Deed}
  {waiting waiting' : Multiset Latch} {size' : Nat} {mem : Buffer → Array α}

/-- What goes into the merge will supply it. -/
theorem Branch.fed (h : Branch g hg cmp d d₁ d₂ e m)
    (hfed : Fed (d ::ₘ duties) done waiting size mem d)
    (hnext : ∀ id m next, trigger id m next ∈ waiting → next.id < size) :
    ∀ x ∈ branches size d d₁ d₂ e m, Fed (branches size d d₁ d₂ e m + duties) (done ++ [])
      (triggerAt size m d.latch ::ₘ .part size d.latch ::ₘ waiting) (size + 2) mem x := by
  intro x hx
  have hhere := hfed.here h.sorts
  have hmem : ∀ x ∈ branches size d d₁ d₂ e m, x ∈ branches size d d₁ d₂ e m + duties :=
    fun x hx => Multiset.mem_add.2 (.inl hx)
  simp only [branches, Multiset.insert_eq_cons, Multiset.mem_cons, Multiset.mem_singleton] at hx
  rcases hx with rfl | rfl | rfl
  · exact .present h.sorts₁ fun b i v hv => hhere b i v (h.takes₁ b i v hv)
  · exact .present h.sorts₂ fun b i v hv => hhere b i v (h.takes₂ b i v hv)
  · refine .behind (size + 1) m (.part size d.latch) ?_ (by omega) (self_mem_path _)
      (fun hmem => ?_) (fun id' m' hT => ?_) fun b i v hv => .inl ?_
    · rw [Duty.to, h.merges]
      trivial
    · exact not_mem_path_of_up (L := trigger (size + 1) m (.part size d.latch)) rfl
        (self_mem_path _) hmem
    · rcases Multiset.mem_cons.1 hT with hT | hT
      · exact hT
      · rcases Multiset.mem_cons.1 hT with hT | hT
        · cases hT
        · exact absurd (hnext id' m' _ hT) (Nat.lt_irrefl size)
    · rcases h.supplies b i v hv with hv | hv
      · exact ⟨d₁.to (triggerAt size m d.latch), hmem _ (by simp [branches]), rfl, hv⟩
      · exact ⟨d₂.to (triggerAt size m d.latch), hmem _ (by simp [branches]), rfl, hv⟩

/-! ## Merges -/

/-- The merges before and behind a cut. -/
structure Cutting (g : Nat) (hg : 0 < g) (cmp : α → α → Ordering) (d head tail : Duty α) (m : Merge)
    (lh rh : Nat) (made : List (α × α)) : Prop where
  left_le : lh ≤ m.left.len
  right_le : rh ≤ m.right.len
  plan : d.plan = .merge m
  plan_head : head.plan = .merge (m.head lh rh)
  plan_tail : tail.plan = .merge (m.tail m.left.len m.right.len lh rh)
  valid_head : head.Valid g hg cmp
  valid_tail : tail.Valid g hg cmp
  latch : head.latch = d.latch
  takes_head : ∀ b i v, head.takes b i v → d.takes b i v
  takes_tail : ∀ b i v, tail.takes b i v → d.takes b i v
  gives : ∀ b i v, d.gives b i v → head.gives b i v ∨ tail.gives b i v
  calls : d.calls = made ++ head.calls ++ tail.calls

/-- **A merge of long runs** comes apart at a cut. -/
theorem exists_cutting (hd : d.Valid g hg cmp) (hplan : d.plan = .merge m)
    (hlong : g < max m.left.len m.right.len) :
    ∃ (c : Cut m.left.len m.right.len) (made : List (α × α)) (head tail : Duty α),
      Returns cmp (cut? g d.left.toArray d.right.toArray m.left.len m.right.len) (some c) made ∧
      c.Halves g ∧ Cutting g hg cmp d head tail m c.left c.right made := by
  have hleft := hd.left
  have hright := hd.right
  have hscript := hd.script
  rw [hplan] at hleft hright hscript
  simp only [Plan.left, Plan.right] at hleft hright
  simp only [Plan.script] at hscript
  rw [splitMerge_eq hleft hright] at hscript
  obtain ⟨c?, made, rest, hcut, hrest, hcalls⟩ := hscript.of_bind
  obtain ⟨c, rfl, hc⟩ := returns_of_ensures hcut (cut?_long (by simp [hleft]) (by simp [hright]) hlong)
  simp only [if_pos (hc.pos hg)] at hrest
  obtain ⟨first, calls₁, rest₁, hfirst, hrest₁, hcalls₁⟩ := hrest.of_bind
  obtain ⟨second, calls₂, rest₂, hsecond, hrest₂, hcalls₂⟩ := hrest₁.of_bind
  obtain ⟨hboth, hnil⟩ := Returns.done.unique hrest₂
  have hl := c.left_le
  have hr := c.right_le
  have hhead : (d.head m first calls₁ c.left c.right).Valid g hg cmp :=
    Duty.valid_head hleft hright hl hr hfirst
  have htail : (d.tail m second calls₂ c.left c.right).Valid g hg cmp :=
    Duty.valid_tail hleft hright hsecond
  have hout : first.length = c.left + c.right := hhead.length_out
  refine ⟨c, made, _, _, hcut, hc,
    { left_le := hl, right_le := hr, plan := hplan, plan_head := rfl, plan_tail := rfl,
      valid_head := hhead, valid_tail := htail, latch := rfl, takes_head := ?takes_head,
      takes_tail := ?takes_tail, gives := ?gives, calls := ?calls }⟩
  case takes_head =>
    rintro b i v ⟨rfl, hv⟩
    rw [Duty.takes, hplan]
    exact ⟨rfl, hv.imp Lays.of_take Lays.of_take⟩
  case takes_tail =>
    rintro b i v ⟨rfl, hv⟩
    rw [Duty.takes, hplan]
    exact ⟨rfl, hv.imp Lays.of_drop Lays.of_drop⟩
  case gives =>
    rintro b i v hv
    rw [Duty.gives, hplan] at hv
    rw [← hboth, lays_append, hout] at hv
    refine hv.2.imp (fun hv' => ⟨hv.1, hv'⟩) fun hv' => ⟨hv.1, ?_⟩
    rwa [← Nat.add_assoc] at hv'
  case calls =>
    rw [hcalls, hcalls₁, hcalls₂, ← hnil, List.append_nil, List.append_assoc]
    rfl

variable {head tail : Duty α} {lh rh : Nat} {made : List (α × α)}

/-- The part of a merge before a cut keeps to the positions of the merge. -/
theorem head_inside (hl : lh ≤ m.left.len) (hr : rh ≤ m.right.len) :
    (Job.merge (m.head lh rh)).Inside (.merge m) := by
  constructor
  · rintro _ i ⟨rfl, hi⟩
    refine ⟨rfl, ?_⟩
    simp only [Merge.head, Span.mem_iff, Span.stop] at hi ⊢
    omega
  · rintro _ i ⟨rfl, hi⟩
    refine ⟨rfl, ?_⟩
    simp only [Merge.head, Merge.target, Span.mem_iff, Span.stop] at hi ⊢
    omega

/-- The part of a merge behind a cut keeps to the positions of the merge. -/
theorem tail_inside (hl : lh ≤ m.left.len) (hr : rh ≤ m.right.len) :
    (Job.merge (m.tail m.left.len m.right.len lh rh)).Inside (.merge m) := by
  constructor
  · rintro _ i ⟨rfl, hi⟩
    refine ⟨rfl, ?_⟩
    simp only [Merge.tail, Span.mem_iff, Span.stop] at hi ⊢
    omega
  · rintro _ i ⟨rfl, hi⟩
    refine ⟨rfl, ?_⟩
    simp only [Merge.tail, Merge.target, Span.mem_iff, Span.stop] at hi ⊢
    omega

/-- Together they write all of its target. -/
theorem merge_covers (hl : lh ≤ m.left.len) (hr : rh ≤ m.right.len) (b : Buffer) (i : Nat)
    (hi : (Job.merge m).writes b i) : (Job.merge (m.head lh rh)).writes b i ∨
      (Job.merge (m.tail m.left.len m.right.len lh rh)).writes b i := by
  obtain ⟨rfl, hi⟩ := hi
  by_cases hlt : i < m.dest + (lh + rh)
  · exact .inl ⟨rfl, hi.1, hlt⟩
  · refine .inr ⟨rfl, ?_⟩
    simp only [Merge.tail, Merge.target, Span.mem_iff, Span.stop] at hi ⊢
    omega

/-- Two merges from one buffer do not meet if they write to different positions. -/
theorem merge_apart {m m' : Merge} (hsource : m.source = m'.source)
    (htarget : ∀ i, i ∈ m.target → i ∉ m'.target) : (Job.merge m).Apart (.merge m') := by
  constructor
  · rintro _ i ⟨rfl, hi⟩ (⟨hb, _⟩ | ⟨_, hi'⟩)
    · exact m.source.ne_other (hsource.trans hb.symm)
    · exact htarget i hi hi'
  · rintro _ i ⟨rfl, hi⟩ (⟨hb, _⟩ | ⟨_, hi'⟩)
    · exact m'.source.ne_other (hsource.symm.trans hb.symm)
    · exact htarget i hi' hi

/-- A search and a merge in one buffer do not meet. -/
theorem search_apart {left right : Span} : (Job.search m.source left right).Apart (.merge m) := by
  constructor
  · intro b i hi
    exact hi.elim
  · rintro _ i ⟨rfl, _⟩ (⟨hb, _⟩ | hi)
    · exact m.source.ne_other hb.symm
    · exact hi

/-- The duties into which a merge comes apart. -/
def parts (size : Nat) (d head tail : Duty α) : Multiset (Duty α) :=
  {head, tail.to (.part size d.latch)}

/-- The search for a cut. -/
def Duty.search (d : Duty α) (m : Merge) : Deed := ⟨d.latch, .search m.source m.left m.right⟩

theorem entire_parts (h : Cutting g hg cmp d head tail m lh rh made) :
    entire (parts size d head tail) [d.search m] =
      {⟨d.latch, .merge (m.head lh rh)⟩,
        ⟨.part size d.latch, .merge (m.tail m.left.len m.right.len lh rh)⟩, d.search m} := by
  simp only [entire, parts, Multiset.insert_eq_cons, Multiset.map_cons, Multiset.map_singleton,
    Multiset.coe_singleton, Multiset.cons_add, Multiset.singleton_add, Duty.deed, Duty.to,
    h.latch, h.plan_head, h.plan_tail]
  rfl

theorem forall_parts {P : Deed → Prop} (h : Cutting g hg cmp d head tail m lh rh made)
    (hhead : P ⟨d.latch, .merge (m.head lh rh)⟩)
    (htail : P ⟨.part size d.latch, .merge (m.tail m.left.len m.right.len lh rh)⟩)
    (hsearch : P (d.search m)) :
    ∀ u ∈ entire (parts size d head tail) [d.search m], P u := by
  intro u hu
  rw [entire_parts h] at hu
  simp only [Multiset.insert_eq_cons, Multiset.mem_cons, Multiset.mem_singleton] at hu
  rcases hu with rfl | rfl | rfl
  · exact hhead
  · exact htail
  · exact hsearch

/-- A merge may come apart at a cut. -/
theorem Cutting.refines (h : Cutting g hg cmp d head tail m lh rh made)
    (hwithin : d.plan.job.Within n) :
    Refines g hg cmp n size (size + 1) d (parts size d head tail) [d.search m] made := by
  have hl := h.left_le
  have hr := h.right_le
  have hjob : d.plan.job = .merge m := by rw [h.plan]; rfl
  have hpart : ∀ Y ∈ d.latch.path, Y ∈ (Latch.part size d.latch).path := fun Y hY =>
    mem_path_part.2 (.inr hY)
  constructor
  case valid =>
    intro x hx
    simp only [parts, Multiset.insert_eq_cons, Multiset.mem_cons, Multiset.mem_singleton] at hx
    rcases hx with rfl | rfl
    · exact h.valid_head
    · exact h.valid_tail.to _
  case within =>
    rw [hjob] at hwithin
    refine forall_parts h ?_ ?_ ?_ <;>
      simp only [Duty.search, Job.Within, Merge.head, Merge.tail, Merge.target, Span.stop]
        at hwithin ⊢ <;> omega
  case inside =>
    have hsearch : (d.search m).job.Inside d.deed.job := by
      rw [Duty.deed, hjob]
      exact ⟨fun b i hi => hi, fun b i hi => hi.elim⟩
    refine forall_parts h ?_ ?_ hsearch
    · rw [Duty.deed, hjob]
      exact head_inside hl hr
    · rw [Duty.deed, hjob]
      exact tail_inside hl hr
  case compatible =>
    rw [entire_parts h, Multiset.insert_eq_cons, Multiset.insert_eq_cons, pairwise_cons,
      pairwise_cons, ← Multiset.cons_zero, pairwise_cons]
    refine ⟨fun u hu => ?_, fun u hu => ?_, fun u hu => absurd hu (Multiset.notMem_zero u),
      Multiset.pairwise_zero _⟩
    · rcases Multiset.mem_cons.1 hu with rfl | hu
      · refine .inl (merge_apart rfl fun i hi hi' => ?_)
        simp only [Merge.head, Merge.tail, Merge.target, Span.mem_iff, Span.stop] at hi hi'
        omega
      · rw [Multiset.mem_singleton.1 hu]
        exact .inl (search_apart (m := m.head lh rh)).symm
    · rw [Multiset.mem_singleton.1 hu]
      exact .inl (search_apart (m := m.tail m.left.len m.right.len lh rh)).symm
  case above => exact forall_parts h (fun _ => id) hpart fun _ => id
  case new =>
    exact forall_parts h (fun Y hY => .inl hY) (fun Y hY => part_new hY 0) fun Y hY => .inl hY
  case covers =>
    intro b i hi
    rw [entire_parts h]
    rw [Duty.deed, hjob] at hi
    rcases merge_covers hl hr b i hi with hi | hi
    · exact ⟨⟨d.latch, .merge (m.head lh rh)⟩, by simp, hi⟩
    · exact ⟨⟨.part size d.latch, .merge (m.tail m.left.len m.right.len lh rh)⟩, by simp, hi⟩
  case gives =>
    intro b i v hv
    rcases h.gives b i v hv with hv | hv
    · exact ⟨head, by simp [parts], by rw [h.latch], hv⟩
    · exact ⟨tail.to (.part size d.latch), by simp [parts], rfl, hv⟩
  case calls =>
    rw [h.calls]
    simp only [parts, Multiset.insert_eq_cons, Multiset.map_cons, Multiset.map_singleton,
      Multiset.sum_cons, Multiset.sum_singleton, ← Multiset.coe_add, add_assoc]
    rfl

/-- The parts of a merge go by the same trigger. -/
theorem Cutting.fed (h : Cutting g hg cmp d head tail m lh rh made)
    (hfed : Fed (d ::ₘ duties) done waiting size mem d) (hwithin : d.plan.job.Within n)
    (hnext : ∀ id m next, trigger id m next ∈ waiting → next.id < size) :
    ∀ x ∈ parts size d head tail, Fed (parts size d head tail + duties) (done ++ [d.search m])
      (.part size d.latch ::ₘ waiting) (size + 1) mem x := by
  have hrefines : Refines g hg cmp n size (size + 1) d (parts size d head tail) [d.search m] made :=
    h.refines hwithin
  have hmerges : ∀ m', (Plan.merge m').job.Merges := fun _ => trivial
  obtain ⟨hm, _⟩ | ⟨id, m', next, hm, hid, hmem, hT, hunique, hsupplied⟩ := hfed
  · exact absurd (h.plan ▸ hmerges m) hm
  intro x hx
  simp only [parts, Multiset.insert_eq_cons, Multiset.mem_cons, Multiset.mem_singleton] at hx
  rcases hx with rfl | rfl
  · refine .behind id m' next (h.plan_head ▸ hmerges _) (by omega) (h.latch ▸ hmem)
      (h.latch ▸ hT) (fun id' m'' hT' => ?_)
      fun b i v hv => (hsupplied b i v (h.takes_head b i v hv)).refine hid hrefines
    rw [h.latch] at hT' ⊢
    exact hunique id' m'' ((Multiset.mem_cons.1 hT').resolve_left (by simp))
  · refine .behind id m' next ?_ (by omega) (mem_path_part.2 (.inr hmem))
      (fun hmem' => hT ((mem_path_part.1 hmem').resolve_left (by simp))) (fun id' m'' hT' => ?_)
      fun b i v hv => (hsupplied b i v (h.takes_tail b i v hv)).refine hid hrefines
    · rw [Duty.to, h.plan_tail]
      exact hmerges _
    · exact absurd (hnext id' m'' _ ((Multiset.mem_cons.1 hT').resolve_left (by simp)))
        (Nat.lt_irrefl size)

end

end ForkJoin.Sorting

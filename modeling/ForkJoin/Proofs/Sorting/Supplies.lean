import ForkJoin.Proofs.Sorting.Duties

/-!
# Where the elements come from

A span that is to be merged need not hold its elements yet. But what is expected at a position is
either there, written by a deed that goes into the merge, and none of the duties that go into it
will write to the position again; or one of those duties will give it. `Assigned` says this of all
duties, and that any two of them are compatible, with each other and with what was done before.

A duty is replaced by others, which read and write no more than it does (`Assigned.refine`), until
it is done (`Assigned.finish`).
-/
namespace ForkJoin.Sorting

open Calling Latch

variable {α : Type}

/-- What was done and what is to be done. -/
def entire (duties : Multiset (Duty α)) (done : List Deed) : Multiset Deed :=
  duties.map Duty.deed + (done : Multiset Deed)

/-- An element that is expected at a position by the merge, or the end, that a latch stands for. -/
def Supplied (duties : Multiset (Duty α)) (done : List Deed) (mem : Buffer → Array α) (X : Latch)
    (b : Buffer) (i : Nat) (v : α) : Prop :=
  (∃ e ∈ duties, e.latch.gate = X ∧ e.gives b i v) ∨
  ((mem b)[i]? = some v ∧ (∀ e ∈ duties, X ∈ e.latch.path → ¬ e.deed.job.writes b i) ∧
    ∃ u ∈ done, X ∈ u.latch.path ∧ u.job.writes b i)

/-- The elements that a duty takes are there, or are supplied. -/
inductive Fed (duties : Multiset (Duty α)) (done : List Deed) (waiting : Multiset Latch)
    (size : Nat) (mem : Buffer → Array α) (d : Duty α) : Prop
  /-- What is to be sorted is there. -/
  | present : ¬ d.plan.job.Merges → (∀ b i v, d.takes b i v → (mem b)[i]? = some v) →
    Fed duties done waiting size mem d
  /-- What is to be merged goes by a trigger, and by no other that is waiting. -/
  | behind (id : Nat) (m : Merge) (next : Latch) : d.plan.job.Merges → id < size →
    next ∈ d.latch.path → trigger id m next ∉ d.latch.path →
    (∀ id' m', trigger id' m' d.latch ∈ waiting → trigger id' m' d.latch = trigger id m next) →
    (∀ b i v, d.takes b i v → Supplied duties done mem (trigger id m next) b i v) →
    Fed duties done waiting size mem d

/-- What does not belong to a merge finds its elements there. -/
theorem Fed.here {duties : Multiset (Duty α)} {done : List Deed} {waiting : Multiset Latch}
    {size : Nat} {mem : Buffer → Array α} {d : Duty α} (h : Fed duties done waiting size mem d)
    (hm : ¬ d.plan.job.Merges) : ∀ b i v, d.takes b i v → (mem b)[i]? = some v := by
  rcases h with ⟨_, hhere⟩ | ⟨_, _, _, hm', _⟩
  · exact hhere
  · exact absurd hm' hm

/-- What is known of the duties. In the end the array is to be `ys`, and the comparisons that were
made are to be those in `all`. -/
structure Assigned (g : Nat) (hg : 0 < g) (cmp : α → α → Ordering) (ys : List α)
    (all : Multiset (α × α)) (duties : Multiset (Duty α)) (done : List Deed)
    (waiting : Multiset Latch) (size : Nat) (mem : Buffer → Array α) (calls : List (α × α)) :
    Prop where
  valid : ∀ d ∈ duties, d.Valid g hg cmp
  within : ∀ u ∈ entire duties done, u.job.Within ys.length
  compatible : (entire duties done).Pairwise Deed.Compatible
  ids : ∀ u ∈ entire duties done, ∀ Y ∈ u.latch.path, Y.id < size
  fed : ∀ d ∈ duties, Fed duties done waiting size mem d
  yields : ∀ i v, Lays 0 ys i v → Supplied duties done mem (root 0) .array i v
  calls : (calls : Multiset (α × α)) + (duties.map fun d => (d.calls : Multiset (α × α))).sum = all

section

variable {duties news : Multiset (Duty α)} {done searched : List Deed} {d e : Duty α} {u : Deed}

@[simp] theorem mem_entire : u ∈ entire duties done ↔ (∃ d ∈ duties, d.deed = u) ∨ u ∈ done := by
  rw [entire, Multiset.mem_add, Multiset.mem_map, Multiset.mem_coe]

theorem entire_cons : entire (d ::ₘ duties) done = d.deed ::ₘ entire duties done := by
  rw [entire, entire, Multiset.map_cons, Multiset.cons_add]

theorem entire_done : entire duties (done ++ [u]) = u ::ₘ entire duties done := by
  rw [entire, entire, ← Multiset.coe_add, Multiset.coe_singleton, ← add_assoc,
    ← Multiset.singleton_add, add_comm]

theorem entire_add : entire (news + duties) (done ++ searched) =
    entire news searched + entire duties done := by
  rw [entire, entire, entire, Multiset.map_add, ← Multiset.coe_add,
    add_comm (done : Multiset Deed), add_add_add_comm]

end

/-! ## Replacing a duty -/

section

variable {g : Nat} {hg : 0 < g} {cmp : α → α → Ordering} {ys : List α} {all : Multiset (α × α)}
  {duties news : Multiset (Duty α)} {done searched : List Deed} {waiting waiting' : Multiset Latch}
  {size size' : Nat} {mem mem' : Buffer → Array α} {calls made : List (α × α)} {d e : Duty α}
  {X : Latch} {b : Buffer} {i : Nat} {v : α}

/-- Duties and deeds that may take the place of a duty: together they do the same at the same
positions, and their paths go by its latch. Latches that are not on its path are new. -/
structure Refines (g : Nat) (hg : 0 < g) (cmp : α → α → Ordering) (n size size' : Nat) (d : Duty α)
    (news : Multiset (Duty α)) (searched : List Deed) (made : List (α × α)) : Prop where
  valid : ∀ e ∈ news, e.Valid g hg cmp
  within : ∀ u ∈ entire news searched, u.job.Within n
  inside : ∀ u ∈ entire news searched, u.job.Inside d.deed.job
  compatible : (entire news searched).Pairwise Deed.Compatible
  above : ∀ u ∈ entire news searched, ∀ Y ∈ d.latch.path, Y ∈ u.latch.path
  new : ∀ u ∈ entire news searched, ∀ Y ∈ u.latch.path,
    Y ∈ d.latch.path ∨ size ≤ Y.id ∧ Y.id < size'
  covers : ∀ b i, d.deed.job.writes b i → ∃ u ∈ entire news searched, u.job.writes b i
  gives : ∀ b i v, d.gives b i v → ∃ e ∈ news, e.latch.gate = d.latch.gate ∧ e.gives b i v
  calls : (made : Multiset (α × α)) + (news.map fun e => (e.calls : Multiset (α × α))).sum = d.calls

/-- What is supplied stays supplied when a duty is replaced. -/
theorem Supplied.refine {n : Nat} (hX : X.id < size)
    (hr : Refines g hg cmp n size size' d news searched made)
    (h : Supplied (d ::ₘ duties) done mem X b i v) :
    Supplied (news + duties) (done ++ searched) mem X b i v := by
  rcases h with ⟨e, he, hgate, hgives⟩ | ⟨hv, hwriters, u, hu, hXu, hwrites⟩
  · refine .inl ?_
    rcases Multiset.mem_cons.1 he with rfl | he
    · obtain ⟨e', he', hgate', hgives'⟩ := hr.gives b i v hgives
      exact ⟨e', Multiset.mem_add.2 (.inl he'), hgate'.trans hgate, hgives'⟩
    · exact ⟨e, Multiset.mem_add.2 (.inr he), hgate, hgives⟩
  · refine .inr ⟨hv, fun e he hXe hwrites => ?_, u, List.mem_append_left _ hu, hXu, hwrites⟩
    rcases Multiset.mem_add.1 he with he | he
    · have hmem : e.deed ∈ entire news searched := mem_entire.2 (.inl ⟨e, he, rfl⟩)
      have hXd := (hr.new _ hmem X hXe).resolve_right fun hnew => by omega
      exact hwriters d (Multiset.mem_cons_self _ _) hXd ((hr.inside _ hmem).writes b i hwrites)
    · exact hwriters e (Multiset.mem_cons_of_mem he) hXe hwrites

/-- What precedes or follows the duty precedes or follows what replaces it. -/
theorem Refines.compatible_of {n : Nat} (hr : Refines g hg cmp n size size' d news searched made)
    {u x : Deed} (hu : u ∈ entire news searched) (hx : ∀ Y ∈ x.latch.path, Y.id < size)
    (h : d.deed.Compatible x) : u.Compatible x := by
  rcases h with h | ⟨id, m, next, hT, hnext, hmem⟩ | ⟨id, m, next, hT, hnext, hmem⟩
  · exact .inl (h.inside (hr.inside u hu))
  · exact .inr (.inl ⟨id, m, next, hr.above u hu _ hT, hnext, hmem⟩)
  · refine .inr (.inr ⟨id, m, next, hT, hr.above u hu _ hnext, fun hmem' => ?_⟩)
    -- the trigger is not new
    have hid := hx _ hT
    exact (hr.new u hu _ hmem').elim hmem fun hnew => by omega

/-- **A duty may be replaced by duties that do the same.** -/
theorem Assigned.refine
    (h : Assigned g hg cmp ys all (d ::ₘ duties) done waiting size mem calls)
    (hr : Refines g hg cmp ys.length size size' d news searched made) (hsize : size ≤ size')
    (hwaiting : ∀ id m next, trigger id m next ∈ waiting' →
      trigger id m next ∈ waiting ∨ size ≤ next.id)
    (hfed : ∀ e ∈ news, Fed (news + duties) (done ++ searched) waiting' size' mem e) :
    Assigned g hg cmp ys all (news + duties) (done ++ searched) waiting' size' mem
      (calls ++ made) := by
  have hids : ∀ Y ∈ d.latch.path, Y.id < size := h.ids d.deed (by simp)
  have hentire : entire (d ::ₘ duties) done = d.deed ::ₘ entire duties done := entire_cons
  have hold : ∀ u ∈ entire duties done, u ∈ entire (d ::ₘ duties) done := fun u hu =>
    hentire ▸ Multiset.mem_cons_of_mem hu
  have hcompatible := h.compatible
  rw [hentire, pairwise_cons] at hcompatible
  constructor
  case valid =>
    intro e he
    rcases Multiset.mem_add.1 he with he | he
    · exact hr.valid e he
    · exact h.valid e (Multiset.mem_cons_of_mem he)
  case within =>
    intro u hu
    rw [entire_add, Multiset.mem_add] at hu
    exact hu.elim (hr.within u) fun hu => h.within u (hold u hu)
  case compatible =>
    rw [entire_add, pairwise_add]
    refine ⟨hr.compatible, hcompatible.2, fun u hu x hx => ?_⟩
    exact hr.compatible_of hu (h.ids x (hold x hx)) (hcompatible.1 x hx)
  case ids =>
    intro u hu Y hY
    rw [entire_add, Multiset.mem_add] at hu
    rcases hu with hu | hu
    · rcases hr.new u hu Y hY with hY | hY
      · exact (hids Y hY).trans_le hsize
      · exact hY.2
    · exact (h.ids u (hold u hu) Y hY).trans_le hsize
  case fed =>
    intro e he
    rcases Multiset.mem_add.1 he with he | he
    · exact hfed e he
    · have he' := Multiset.mem_cons_of_mem (b := d) he
      rcases h.fed e he' with ⟨hm, hhere⟩ | ⟨id, m, next, hm, hid, hnext, hT, hunique, hsupplied⟩
      · exact .present hm hhere
      · refine .behind id m next hm (hid.trans_le hsize) hnext hT (fun id' m' hT' => ?_)
          fun b i v hv => (hsupplied b i v hv).refine hid hr
        refine hunique id' m' ((hwaiting id' m' e.latch hT').resolve_right fun hle => ?_)
        have hmem : e.deed ∈ entire (d ::ₘ duties) done := mem_entire.2 (.inl ⟨e, he', rfl⟩)
        exact absurd (h.ids e.deed hmem e.latch (self_mem_path _)) (Nat.not_lt.2 hle)
  case yields =>
    intro i v hv
    exact (h.yields i v hv).refine ((Nat.zero_le _).trans_lt (hids _ (self_mem_path _))) hr
  case calls =>
    rw [← h.calls, Multiset.map_add, Multiset.sum_add, Multiset.map_cons, Multiset.sum_cons,
      ← hr.calls, ← Multiset.coe_add, add_assoc, add_assoc]

/-! ## Doing a duty -/

/-- The duty is done: what it gives is there, and nothing was written but by it. -/
structure Duty.Done (d : Duty α) (mem mem' : Buffer → Array α) : Prop where
  gives : ∀ b i v, d.gives b i v → (mem' b)[i]? = some v
  frame : ∀ b i, ¬ d.deed.job.writes b i → (mem' b)[i]? = (mem b)[i]?

/-- No other duty comes before it, and only merges that it goes into by way of a waiting trigger
come after it. -/
structure Duty.Ready (d : Duty α) (duties : Multiset (Duty α)) (waiting : Multiset Latch) :
    Prop where
  first : ∀ e ∈ duties, ¬ e.latch.Precedes d.latch
  later : ∀ e ∈ duties, d.latch.Precedes e.latch → e.plan.job.Merges ∧
    ∃ id m, trigger id m e.latch ∈ waiting ∧ trigger id m e.latch ∈ d.latch.path

/-- What is supplied stays supplied when a duty is done, unless it is overwritten by one that does
not go there. -/
theorem Supplied.finish (hready : d.Ready duties waiting) (hdone : d.Done mem mem')
    (hvalid : d.Valid g hg cmp) (hcompatible : ∀ e ∈ duties, d.deed.Compatible e.deed)
    (hX : X ∉ d.latch.path → ¬ d.deed.job.writes b i)
    (h : Supplied (d ::ₘ duties) done mem X b i v) :
    Supplied duties (done ++ [d.deed]) mem' X b i v := by
  rcases h with ⟨e, he, hgate, hgives⟩ | ⟨hv, hwriters, u, hu, hXu, hwrites⟩
  · rcases Multiset.mem_cons.1 he with rfl | he
    · have hwrites := hvalid.writes hgives
      have hgate' : X ∈ e.latch.path := hgate ▸ gate_mem_path e.latch
      refine .inr ⟨hdone.gives b i v hgives, fun e' he' hXe' hwrites' => ?_, e.deed,
        List.mem_append_right _ (List.mem_singleton_self _), hgate', hwrites⟩
      -- another that writes there would be a merge behind the gate
      have hprecedes : e.latch.Precedes e'.latch := by
        by_contra hnot
        exact ((hcompatible e' he').apart hnot (hready.first e' he')).left b i hwrites
          (.inr hwrites')
      obtain ⟨_, id, m, _, hT⟩ := hready.later e' he' hprecedes
      exact gate_not_mem_path hT (hgate ▸ hXe')
    · exact .inl ⟨e, he, hgate, hgives⟩
  · refine .inr ⟨?_, fun e he => hwriters e (Multiset.mem_cons_of_mem he), u,
      List.mem_append_left _ hu, hXu, hwrites⟩
    have hnot : ¬ d.deed.job.writes b i := fun hwrites =>
      hX (fun hXd => hwriters d (Multiset.mem_cons_self _ _) hXd hwrites) hwrites
    rw [hdone.frame b i hnot, hv]

/-- **A duty that is ready may be done.** -/
theorem Assigned.finish (h : Assigned g hg cmp ys all (d ::ₘ duties) done waiting size mem calls)
    (hready : d.Ready duties waiting) (hdone : d.Done mem mem') (hroot : root 0 ∈ d.latch.path) :
    Assigned g hg cmp ys all duties (done ++ [d.deed]) waiting size mem' (calls ++ d.calls) := by
  have hentire : entire duties (done ++ [d.deed]) = entire (d ::ₘ duties) done := by
    rw [entire_done, entire_cons]
  have hd := Multiset.mem_cons_self d duties
  have hvalid := h.valid d hd
  have hcompatible : ∀ e ∈ duties, d.deed.Compatible e.deed := by
    have hall := h.compatible
    rw [entire_cons, pairwise_cons] at hall
    exact fun e he => hall.1 _ (mem_entire.2 (.inl ⟨e, he, rfl⟩))
  refine ⟨fun e he => h.valid e (Multiset.mem_cons_of_mem he), hentire ▸ h.within,
    hentire ▸ h.compatible, hentire ▸ h.ids, ?_, ?_, ?_⟩
  · intro e he
    have hapart : ¬ d.latch.Precedes e.latch → d.deed.job.Apart e.deed.job := fun hnot =>
      (hcompatible e he).apart hnot (hready.first e he)
    have hvalid' := h.valid e (Multiset.mem_cons_of_mem he)
    rcases h.fed e (Multiset.mem_cons_of_mem he) with
      ⟨hm, hhere⟩ | ⟨id, m, next, hm, hid, hnext, hT, hunique, hsupplied⟩
    · refine .present hm fun b i v hv => ?_
      have hnot : ¬ d.deed.job.writes b i := fun hwrites =>
        (hapart fun hpre => hm (hready.later e he hpre).1).left b i hwrites (.inl (hvalid'.reads hv))
      rw [hdone.frame b i hnot]
      exact hhere b i v hv
    · refine .behind id m next hm hid hnext hT hunique fun b i v hv => ?_
      refine (hsupplied b i v hv).finish hready hdone hvalid hcompatible fun hX hwrites => ?_
      -- who writes there goes into the merge
      have hprecedes : d.latch.Precedes e.latch := by
        by_contra hnot
        exact (hapart hnot).left b i hwrites (.inl (hvalid'.reads hv))
      obtain ⟨_, id', m', hwaiting, hpath⟩ := hready.later e he hprecedes
      exact hX (hunique id' m' hwaiting ▸ hpath)
  · intro i v hv
    exact (h.yields i v hv).finish hready hdone hvalid hcompatible fun hX => absurd hroot hX
  · rw [← h.calls, Multiset.map_cons, Multiset.sum_cons, ← Multiset.coe_add, add_assoc]

end

end ForkJoin.Sorting

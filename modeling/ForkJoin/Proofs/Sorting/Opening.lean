import ForkJoin.Proofs.Sorting.Progress

/-!
# Plans that come apart

What a task does to the state before it reads or writes an element: it makes latches, for parts of
what it has to do and for triggers of merges, and announces one more report for each cut. The state
stays sound.
-/
namespace ForkJoin.Sorting

open Calling Latch

variable {α : Type}

/-- A latch was made. -/
def Store.made (s : Store α) (p : UInt32) (X : Latch) : Store α :=
  { s with
    pending := s.pending.push p
    log := s.log.push (.opened X) }

theorem Store.buffer_made (s : Store α) (p : UInt32) (X : Latch) :
    (s.made p X).buffer = s.buffer := by
  funext b
  cases b <;> rfl

variable {g : Nat} {hg : 0 < g} {cmp : α → α → Ordering} {ys : List α} {all : Multiset (α × α)}
  {K : Nat} {walkers : Multiset Walker} {waiting : Multiset Latch}
  {duties : Multiset (Duty α)} {s : Store α} {calls : List (α × α)} {d : Duty α}

namespace Sound

section

variable (h : Sound g hg cmp ys all K (.work d.latch d.plan ::ₘ walkers) waiting (d ::ₘ duties) s
  calls)

include h

theorem made_latch : d.latch ∈ opened s.log.toList :=
  h.chronicle.known _ h.latch_waiting

/-- What was made or done before does not know of new latches. -/
theorem listed_replace {news : Multiset Deed} {fresh : List Latch} {size' : Nat}
    (extra : Multiset Latch)
    (hinside : ∀ u ∈ news, u.job.Inside d.plan.job)
    (habove : ∀ u ∈ news, ∀ Y ∈ d.latch.path, Y ∈ u.latch.path)
    (hnew : ∀ u ∈ news, ∀ Y ∈ u.latch.path,
      Y ∈ d.latch.path ∨ s.pending.size ≤ Y.id ∧ Y.id < size')
    (hbelongs : ∀ u ∈ news, u.job.Merges → d.plan.job.Merges ∨
      ∃ id m next, trigger id m next ∈ fresh ∧ next ∈ u.latch.path ∧
        trigger id m next ∉ u.latch.path ∧ ∀ b i, u.job.reads b i → (Job.merge m).reads b i)
    (hmerging : news.filterMap Deed.merging =
      ({d.deed} : Multiset Deed).filterMap Deed.merging + extra)
    (hextra : extra.Nodup) (hids : ∀ X ∈ extra, s.pending.size ≤ X.id)
    (hfresh : ∀ id m next, trigger id m next ∈ fresh → next ∈ extra ∧
      ∀ b i, (Job.merge m).writes b i → ∃ u ∈ news, next ∈ u.latch.path ∧
        trigger id m next ∉ u.latch.path ∧ u.job.writes b i)
    (hheads : ∀ u ∈ news, ∀ m', u.job = .merge m' → ∀ id m,
      trigger id m u.latch ∈ opened s.log.toList ++ fresh → m'.IsHead m)
    (hcovers : ∀ b i, d.plan.job.writes b i → ∃ u ∈ news, u.job.writes b i) :
    Listed (news + entire duties (deeds s.log.toList)) (opened s.log.toList ++ fresh) := by
  have hlisted := h.listed
  rw [entire_cons] at hlisted
  refine hlisted.replace s.pending.size (fun X hX => h.chronicle.id_lt hX)
    (fun u hu => h.latch_lt u (entire_cons ▸ hu)) hinside habove
    (fun u hu Y hY => (hnew u hu Y hY).imp_right And.left) hbelongs hmerging hextra hids hfresh
    hheads hcovers

theorem balanced_cons : Balanced (d.latch ::ₘ walkers.map Walker.latch) waiting s.pending := by
  have hbalanced := h.balanced
  rwa [Multiset.map_cons] at hbalanced

/-- The counters that were there keep their room. -/
theorem room_of_push {pending' : Array UInt32} {e : Duty α} (he : e ∈ duties)
    (hpending : ∀ i < s.pending.size, pending'[i]? = s.pending[i]?) {m : Merge}
    (hm : e.plan = .merge m) {p : UInt32} (hp : pending'[e.latch.id]? = some p) :
    p.toNat + Nat.size m.left.len + Nat.size m.right.len ≤ 2 ^ 8 := by
  have he' := Multiset.mem_cons_of_mem (b := d) he
  rw [hpending _ (h.balanced.id_lt (h.duty_waiting he'))] at hp
  exact h.room e he' m hm p hp

theorem not_completed {events : List Event} (he : .completed ∉ events) :
    .completed ∉ s.log.toList ++ events := by
  rw [List.mem_append, not_or]
  exact ⟨h.running h.root_waiting, he⟩

/-! ### A part of a latch -/

theorem part_balanced :
    Balanced (.part s.pending.size d.latch ::ₘ walkers.map Walker.latch)
      (.part s.pending.size d.latch ::ₘ waiting) (s.pending.push 0) := by
  have hpart := h.balanced_cons.opened (k := 1) (p := 0) (Y := .part s.pending.size d.latch) rfl
    rfl rfl (by simp)
  rwa [Multiset.replicate_one, Multiset.singleton_add] at hpart

theorem part_chronicle :
    Chronicle (s.log.toList ++ [.opened (.part s.pending.size d.latch)])
      (.part s.pending.size d.latch ::ₘ waiting) (s.pending.push 0) :=
  h.chronicle.opened rfl rfl h.made_latch rfl

theorem part_dated :
    Dated (deeds s.log.toList) (.part s.pending.size d.latch ::ₘ waiting)
      (opened s.log.toList ++ [.part s.pending.size d.latch]) :=
  h.dated.opened (by simp)

theorem part_refines : Refines g hg cmp ys.length s.pending.size (s.pending.size + 1) d
    {d.to (.part s.pending.size d.latch)} [] [] :=
  refines_part (h.assigned.valid d (Multiset.mem_cons_self _ _)) h.within

theorem part_listed (hm : ¬ d.plan.job.Merges) :
    Listed (entire {d.to (.part s.pending.size d.latch)} [] + entire duties (deeds s.log.toList))
      (opened s.log.toList ++ [.part s.pending.size d.latch]) := by
  have hrefines := h.part_refines
  have hnone : ∀ X : Latch, (⟨X, d.plan.job⟩ : Deed).merging = none := fun X =>
    Deed.merging_eq_none hm
  have hnews : ∀ u ∈ entire {d.to (.part s.pending.size d.latch)} [], ¬ u.job.Merges :=
    forall_to hm
  refine h.listed_replace 0 hrefines.inside hrefines.above hrefines.new
    (fun u hu hu' => absurd hu' (hnews u hu)) ?_ Multiset.nodup_zero
    (fun X hX => absurd hX (Multiset.notMem_zero X)) (fun id m next hT => ?_)
    (fun u hu m' hu' => absurd (Job.merges_of_eq hu') (hnews u hu)) hrefines.covers
  · rw [entire_to, Duty.deed, ← Multiset.cons_zero, ← Multiset.cons_zero,
      Multiset.filterMap_cons_none _ _ (hnone _), Multiset.filterMap_cons_none _ _ (hnone d.latch),
      add_zero]
  · exact absurd (List.mem_singleton.1 hT) (by simp)

/-- What is to be sorted may be reported to a new part of its latch. -/
theorem open_part (hm : ¬ d.plan.job.Merges) :
    Sound g hg cmp ys all K (.work (.part s.pending.size d.latch) d.plan ::ₘ walkers)
      (.part s.pending.size d.latch ::ₘ waiting) (d.to (.part s.pending.size d.latch) ::ₘ duties)
      (s.made 0 (.part s.pending.size d.latch)) calls := by
  have hlog : (s.made 0 (.part s.pending.size d.latch)).log.toList =
      s.log.toList ++ [.opened (.part s.pending.size d.latch)] := Array.toList_push
  have hsize : (s.made 0 (.part s.pending.size d.latch)).pending.size = s.pending.size + 1 :=
    Array.size_push _
  have hdeeds : deeds (s.log.toList ++ [.opened (.part s.pending.size d.latch)]) =
      deeds s.log.toList ++ [] := deeds_concat _ _
  have hopened : opened (s.log.toList ++ [.opened (.part s.pending.size d.latch)]) =
      opened s.log.toList ++ [.part s.pending.size d.latch] := opened_concat _ _
  have hsound := h.replace (s.made 0 (.part s.pending.size d.latch))
    (.work (.part s.pending.size d.latch) d.plan ::ₘ walkers)
    (.part s.pending.size d.latch ::ₘ waiting) (hsize ▸ h.part_refines) (Store.buffer_made _ _ _)
    (hsize ▸ Nat.le_succ _) (hlog ▸ hdeeds) ?balanced (hlog ▸ h.part_chronicle) ?agenda ?triggers
    ?fed ?dated ?listed ?room ?root ?completed ?cost
  · rwa [Multiset.singleton_add, List.append_nil] at hsound
  case balanced =>
    rw [Multiset.map_cons]
    exact h.part_balanced
  case agenda =>
    rw [Multiset.map_singleton, Multiset.singleton_add, plans_part, plans_work]
    rfl
  case triggers =>
    intro id m next hT
    exact .inl ((Multiset.mem_cons.1 hT).resolve_left (by simp))
  case fed =>
    intro e he
    rw [Multiset.mem_singleton.1 he]
    exact .present hm ((h.assigned.fed d (Multiset.mem_cons_self _ _)).here hm)
  case dated =>
    rw [hlog, hdeeds, hopened, List.append_nil]
    exact h.part_dated
  case listed =>
    rw [hlog, hopened]
    exact h.part_listed hm
  case room =>
    intro e he m' hplan p hp
    rcases Multiset.mem_add.1 he with he | he
    · rw [Multiset.mem_singleton.1 he] at hplan
      refine absurd ?_ hm
      rw [show d.plan = .merge m' from hplan]
      trivial
    · exact h.room_of_push he (fun i hi => by rw [Store.made, Array.getElem?_push, if_neg hi.ne])
        hplan hp
  case root => exact Multiset.mem_cons_of_mem h.root_waiting
  case completed =>
    rw [hlog]
    exact h.not_completed (by simp)
  case cost =>
    rw [Multiset.card_cons, Multiset.map_singleton, Multiset.sum_singleton]
    exact Nat.le_refl _

/-! ### Two sorts and a merge -/

variable {d₁ d₂ e : Duty α} {m : Merge}

theorem branch_balanced (m : Merge) :
    Balanced (triggerAt s.pending.size m d.latch ::ₘ triggerAt s.pending.size m d.latch ::ₘ
        walkers.map Walker.latch)
      (triggerAt s.pending.size m d.latch ::ₘ .part s.pending.size d.latch ::ₘ waiting)
      ((s.pending.push 0).push 1) := by
  have hpart := h.part_balanced
  have htrigger := hpart.opened (k := 2) (p := 1) (Y := triggerAt s.pending.size m d.latch)
    (by rw [Array.size_push]; rfl) rfl rfl fun _ _ _ => ?_
  · rwa [Multiset.replicate_succ, Multiset.replicate_one, Multiset.cons_add,
      Multiset.singleton_add] at htrigger
  · obtain ⟨p, hp, hcount⟩ := hpart.counts _ (Multiset.mem_cons_self _ _)
    rw [show (Latch.part s.pending.size d.latch).id = s.pending.size from rfl,
      Array.getElem?_push_size] at hp
    obtain rfl := Option.some.inj hp
    exact hcount.symm

theorem branch_chronicle (m : Merge) :
    Chronicle (s.log.toList ++ [.opened (.part s.pending.size d.latch)] ++
        [.opened (triggerAt s.pending.size m d.latch)])
      (triggerAt s.pending.size m d.latch ::ₘ .part s.pending.size d.latch ::ₘ waiting)
      ((s.pending.push 0).push 1) := by
  refine h.part_chronicle.opened (by rw [Array.size_push]; rfl) rfl ?_ rfl
  rw [opened_concat]
  exact List.mem_append_right _ (List.mem_singleton_self _)

theorem branch_dated (m : Merge) :
    Dated (deeds s.log.toList)
      (triggerAt s.pending.size m d.latch ::ₘ .part s.pending.size d.latch ::ₘ waiting)
      (opened s.log.toList ++
        [.part s.pending.size d.latch, triggerAt s.pending.size m d.latch]) := by
  have htrigger := h.part_dated.opened (X := triggerAt s.pending.size m d.latch) ?_
  · rwa [List.append_assoc] at htrigger
  · intro id m' next heq u hu hnext
    obtain ⟨-, -, rfl⟩ := Latch.trigger.inj heq
    have hmem : u ∈ entire (d ::ₘ duties) (deeds s.log.toList) := mem_entire.2 (.inr hu)
    exact absurd (h.assigned.ids u hmem _ hnext) (Nat.lt_irrefl s.pending.size)

theorem branch_refines (hb : Branch g hg cmp d d₁ d₂ e m) :
    Refines g hg cmp ys.length s.pending.size (s.pending.size + 2) d
      (branches s.pending.size d d₁ d₂ e m) [] [] :=
  hb.refines h.within h.path_lt

theorem branch_listed (hb : Branch g hg cmp d d₁ d₂ e m) :
    Listed (entire (branches s.pending.size d d₁ d₂ e m) [] +
        entire duties (deeds s.log.toList))
      (opened s.log.toList ++
        [.part s.pending.size d.latch, triggerAt s.pending.size m d.latch]) := by
  have hrefines := h.branch_refines hb
  have hjob : e.plan.job = .merge m := by rw [hb.merges]; rfl
  refine h.listed_replace {.part s.pending.size d.latch} hrefines.inside hrefines.above
    hrefines.new ?belongs ?merging (Multiset.nodup_singleton _) ?ids ?fresh ?heads hrefines.covers
  case belongs =>
    refine forall_branches (fun hm => absurd hm hb.sorts₁) (fun hm => absurd hm hb.sorts₂)
      fun _ => .inr ⟨s.pending.size + 1, m, .part s.pending.size d.latch, ?_, self_mem_path _, ?_, ?_⟩
    · exact List.mem_cons_of_mem _ (List.mem_singleton_self _)
    · exact not_mem_path_of_up (L := triggerAt s.pending.size m d.latch) rfl (self_mem_path _)
    · rw [hjob]
      exact fun b i => id
  case merging =>
    have hd : d.deed.merging = none := Deed.merging_eq_none hb.sorts
    rw [entire_branches, hjob, Multiset.insert_eq_cons, Multiset.insert_eq_cons,
      Multiset.filterMap_cons_none _ _ (Deed.merging_eq_none hb.sorts₁),
      Multiset.filterMap_cons_none _ _ (Deed.merging_eq_none hb.sorts₂), ← Multiset.cons_zero,
      Multiset.filterMap_cons_some _ _ _ (by rfl), ← Multiset.cons_zero,
      Multiset.filterMap_cons_none _ _ hd, Multiset.filterMap_zero, zero_add, Multiset.cons_zero]
  case ids =>
    intro X hX
    rw [Multiset.mem_singleton.1 hX]
    exact Nat.le_refl _
  case fresh =>
    intro id m' next hT
    rw [List.mem_cons, List.mem_singleton] at hT
    obtain ⟨rfl, rfl, rfl⟩ := Latch.trigger.inj (hT.resolve_left (by simp))
    refine ⟨Multiset.mem_singleton_self _, fun b i hw => ?_⟩
    rw [entire_branches]
    refine ⟨⟨.part s.pending.size d.latch, e.plan.job⟩, by simp, self_mem_path _, ?_, hjob ▸ hw⟩
    exact not_mem_path_of_up (L := triggerAt s.pending.size m' d.latch) rfl (self_mem_path _)
  case heads =>
    refine forall_branches (fun m' hm' => absurd (Job.merges_of_eq hm') hb.sorts₁)
      (fun m' hm' => absurd (Job.merges_of_eq hm') hb.sorts₂) fun m' hm' id m'' hT => ?_
    obtain rfl := Job.merge.inj (hjob.symm.trans hm')
    rcases List.mem_append.1 hT with hT | hT
    · have hpart := h.chronicle.paths _ hT _ (mem_path_trigger.2 (.inr (self_mem_path _)))
      exact absurd (h.chronicle.id_lt hpart) (Nat.lt_irrefl s.pending.size)
    · rw [List.mem_cons, List.mem_singleton] at hT
      obtain ⟨-, rfl, -⟩ := Latch.trigger.inj (hT.resolve_left (by simp))
      exact Merge.isHead_refl _

theorem branch_room (hb : Branch g hg cmp d d₁ d₂ e m) {x : Duty α}
    (hx : x ∈ branches s.pending.size d d₁ d₂ e m) {m' : Merge} (hplan : x.plan = .merge m')
    {p : UInt32} (hp : ((s.pending.push 0).push 1)[x.latch.id]? = some p) :
    p.toNat + Nat.size m'.left.len + Nat.size m'.right.len ≤ 2 ^ 8 := by
  have hmerges : (Plan.merge m').job.Merges := trivial
  simp only [branches, Multiset.insert_eq_cons, Multiset.mem_cons, Multiset.mem_singleton] at hx
  rcases hx with rfl | rfl | rfl
  · exact absurd (hplan ▸ hmerges) hb.sorts₁
  · exact absurd (hplan ▸ hmerges) hb.sorts₂
  · obtain rfl := Plan.merge.inj (hb.merges.symm.trans hplan)
    rw [show (e.to (.part s.pending.size d.latch)).latch.id = s.pending.size from rfl,
      Array.getElem?_push, if_neg (by rw [Array.size_push]; omega), Array.getElem?_push_size] at hp
    obtain rfl := Option.some.inj hp
    have hlt := h.lt
    have hwithin := (hb.within _ h.within).2.2
    rw [hb.merges] at hwithin
    simp only [Plan.job, Job.Within, Span.stop] at hwithin
    have hleft : Nat.size m.left.len ≤ 64 := Nat.size_le.2 (by omega)
    have hright : Nat.size m.right.len ≤ 64 := Nat.size_le.2 (by omega)
    rw [UInt32.toNat_zero]
    omega

/-- What is to be sorted may come apart into two, which trigger a merge. -/
theorem branch (hb : Branch g hg cmp d d₁ d₂ e m)
    (hcost : d₁.plan.forks g hg + d₂.plan.forks g hg + (m.left.len + m.right.len - 1) + 1 ≤
      d.plan.forks g hg) :
    Sound g hg cmp ys all K
      (.work (triggerAt s.pending.size m d.latch) d₁.plan ::ₘ
        .work (triggerAt s.pending.size m d.latch) d₂.plan ::ₘ walkers)
      (triggerAt s.pending.size m d.latch ::ₘ .part s.pending.size d.latch ::ₘ waiting)
      (branches s.pending.size d d₁ d₂ e m + duties)
      ((s.made 0 (.part s.pending.size d.latch)).made 1 (triggerAt s.pending.size m d.latch))
      calls := by
  have hlog : ((s.made 0 (.part s.pending.size d.latch)).made 1
      (triggerAt s.pending.size m d.latch)).log.toList =
        s.log.toList ++ [.opened (.part s.pending.size d.latch)] ++
          [.opened (triggerAt s.pending.size m d.latch)] := by
    rw [Store.made, Array.toList_push, Store.made, Array.toList_push]
  have hsize : ((s.made 0 (.part s.pending.size d.latch)).made 1
      (triggerAt s.pending.size m d.latch)).pending.size = s.pending.size + 2 := by
    simp only [Store.made, Array.size_push]
  have hdeeds : ∀ X Y : Latch, deeds (s.log.toList ++ [.opened X] ++ [.opened Y]) =
      deeds s.log.toList ++ [] := by
    intro X Y
    rw [deeds_concat, deeds_concat, List.append_assoc]
    rfl
  have hopened : ∀ X Y : Latch, opened (s.log.toList ++ [.opened X] ++ [.opened Y]) =
      opened s.log.toList ++ [X, Y] := by
    intro X Y
    rw [opened_concat, opened_concat, List.append_assoc]
    rfl
  have hrefines := h.branch_refines hb
  have hsound := h.replace
    ((s.made 0 (.part s.pending.size d.latch)).made 1 (triggerAt s.pending.size m d.latch))
    (.work (triggerAt s.pending.size m d.latch) d₁.plan ::ₘ
      .work (triggerAt s.pending.size m d.latch) d₂.plan ::ₘ walkers)
    (triggerAt s.pending.size m d.latch ::ₘ .part s.pending.size d.latch ::ₘ waiting)
    (hsize ▸ hrefines) ((Store.buffer_made _ _ _).trans (Store.buffer_made _ _ _))
    (hsize ▸ Nat.le_add_right _ _) (hlog ▸ hdeeds _ _) ?balanced (hlog ▸ h.branch_chronicle m)
    ?agenda ?triggers ?fed ?dated ?listed ?room ?root ?completed ?cost
  · rwa [List.append_nil] at hsound
  case balanced =>
    rw [Multiset.map_cons, Multiset.map_cons]
    exact h.branch_balanced m
  case agenda =>
    have hentry : (e.to (.part s.pending.size d.latch)).entry =
        (.part s.pending.size d.latch, .merge m) := by
      rw [Duty.entry, Duty.to, hb.merges]
    rw [branches, Multiset.insert_eq_cons, Multiset.insert_eq_cons, Multiset.map_cons,
      Multiset.map_cons, Multiset.map_singleton, hentry, triggerAt, plans_work, plans_work,
      plans_trigger, plans_part, Multiset.cons_add, Multiset.cons_add, Multiset.singleton_add]
    rfl
  case triggers =>
    intro id m' next hmem
    rcases Multiset.mem_cons.1 hmem with heq | hmem
    · obtain ⟨-, -, rfl⟩ := Latch.trigger.inj heq
      exact .inr (Nat.le_refl _)
    · exact .inl ((Multiset.mem_cons.1 hmem).resolve_left (by simp))
  case fed =>
    rw [hsize]
    exact hb.fed (h.assigned.fed d (Multiset.mem_cons_self _ _)) fun id m next => h.next_lt
  case dated =>
    rw [hlog, hdeeds, hopened, List.append_nil]
    exact h.branch_dated m
  case listed =>
    rw [hlog, hopened]
    exact h.branch_listed hb
  case room =>
    intro x hx m' hplan p hp
    rcases Multiset.mem_add.1 hx with hx | hx
    · exact h.branch_room hb hx hplan hp
    · refine h.room_of_push hx (fun i hi => ?_) hplan hp
      simp only [Store.made]
      rw [Array.getElem?_push, if_neg (by rw [Array.size_push]; omega), Array.getElem?_push,
        if_neg hi.ne]
  case root => exact Multiset.mem_cons_of_mem (Multiset.mem_cons_of_mem h.root_waiting)
  case completed =>
    rw [hlog, List.append_assoc]
    exact h.not_completed (by simp)
  case cost =>
    simp only [branches, Multiset.insert_eq_cons, Multiset.map_cons, Multiset.map_singleton,
      Multiset.sum_cons, Multiset.sum_singleton, Multiset.card_cons, Duty.to, hb.merges]
    simp only [Plan.forks] at hcost ⊢
    omega

/-! ## Cuts -/

variable {head tail : Duty α} {lh rh : Nat} {made : List (α × α)} {p : UInt32}

theorem cut_balanced (hp : s.pending[d.latch.id]? = some p) (hlt : p.toNat + 1 < 2 ^ 32) :
    Balanced (d.latch ::ₘ .part s.pending.size d.latch ::ₘ walkers.map Walker.latch)
      (.part s.pending.size d.latch ::ₘ waiting)
      ((s.pending.setIfInBounds d.latch.id (p + 1)).push 0) := by
  have hraised := (h.balanced_cons.raised hp hlt).opened (k := 1) (p := 0)
    (Y := .part s.pending.size d.latch) (by rw [Array.size_setIfInBounds]; rfl) rfl rfl (by simp)
  rwa [Multiset.replicate_one, Multiset.singleton_add, Multiset.cons_swap] at hraised

theorem cut_chronicle (hp : s.pending[d.latch.id]? = some p) (hlt : p.toNat + 1 < 2 ^ 32)
    (job : Job) :
    Chronicle (s.log.toList ++ [.did d.latch job] ++ [.raised d.latch] ++
        [.opened (.part s.pending.size d.latch)])
      (.part s.pending.size d.latch ::ₘ waiting)
      ((s.pending.setIfInBounds d.latch.id (p + 1)).push 0) := by
  have hraised := (h.chronicle.quiet (Chronicle.quiet_did d.latch job)).raised h.latch_waiting hp hlt
  refine hraised.opened (by rw [Array.size_setIfInBounds]; rfl) rfl ?_ rfl
  rw [opened_concat, opened_concat]
  simpa [opened] using h.made_latch

theorem dated_concat (job : Job) :
    Dated (deeds s.log.toList ++ [⟨d.latch, job⟩]) waiting (opened s.log.toList) :=
  h.dated.concat h.made_latch (fun _ hY => h.balanced.path_waiting h.latch_waiting hY)
    (fun _ _ _ hT hnext => h.balanced.trigger_mem_path latch_walking hT hnext) job

theorem cut_refines (hc : Cutting g hg cmp d head tail m lh rh made) :
    Refines g hg cmp ys.length s.pending.size (s.pending.size + 1) d
      (parts s.pending.size d head tail) [d.search m] made :=
  hc.refines h.within

theorem cut_listed (hc : Cutting g hg cmp d head tail m lh rh made) :
    Listed (entire (parts s.pending.size d head tail) [d.search m] +
        entire duties (deeds s.log.toList))
      (opened s.log.toList ++ [.part s.pending.size d.latch]) := by
  have hrefines := h.cut_refines hc
  have hjob : d.plan.job = .merge m := by rw [hc.plan]; rfl
  have hnotin : ∀ id m', trigger id m' d.latch ∈ opened s.log.toList ++
      [.part s.pending.size d.latch] → trigger id m' d.latch ∈ opened s.log.toList := by
    intro id m' hT
    rw [List.mem_append, List.mem_singleton] at hT
    exact hT.resolve_right (by simp)
  refine h.listed_replace {.part s.pending.size d.latch} hrefines.inside hrefines.above
    hrefines.new (fun _ _ _ => .inl (Job.merges_of_eq hjob)) ?merging (Multiset.nodup_singleton _)
    ?ids ?fresh ?heads hrefines.covers
  case merging =>
    rw [entire_parts hc, Duty.deed, hjob, Multiset.insert_eq_cons, Multiset.insert_eq_cons,
      Multiset.filterMap_cons_some _ _ _ (by rfl), Multiset.filterMap_cons_some _ _ _ (by rfl),
      ← Multiset.cons_zero, Multiset.filterMap_cons_none _ _ (by rfl), Multiset.filterMap_zero,
      ← Multiset.cons_zero, Multiset.filterMap_cons_some _ _ _ (by rfl), Multiset.filterMap_zero,
      Multiset.cons_add, zero_add]
    rfl
  case ids =>
    intro X hX
    rw [Multiset.mem_singleton.1 hX]
    exact Nat.le_refl _
  case fresh =>
    intro id m' next hT
    exact absurd (List.mem_singleton.1 hT) (by simp)
  case heads =>
    refine forall_parts hc (fun m' hm' id m'' hT => ?_) (fun m' _ id m'' hT => ?_) (by rintro _ ⟨⟩)
    · have hhead := h.listed.heads d.deed (mem_entire.2 (.inl ⟨d, Multiset.mem_cons_self _ _, rfl⟩))
        m hjob id m'' (hnotin id m'' hT)
      obtain rfl := Job.merge.inj hm'
      exact hhead.head hc.left_le hc.right_le
    · rw [List.mem_append, List.mem_singleton] at hT
      have hpart := h.chronicle.paths _ (hT.resolve_right (by simp)) _
        (mem_path_trigger.2 (.inr (self_mem_path _)))
      exact absurd (h.chronicle.id_lt hpart) (Nat.lt_irrefl s.pending.size)

/-- No two merges are reported to one latch. -/
theorem latch_ne {m' : Merge} (hplan : d.plan = .merge m) {e : Duty α} (he : e ∈ duties)
    (hplan' : e.plan = .merge m') : e.latch ≠ d.latch := by
  intro heq
  have honce := h.listed.once
  obtain ⟨rest, rfl⟩ := Multiset.exists_cons_of_mem he
  have hmerging : ∀ {x : Duty α} {m : Merge}, x.plan = .merge m → x.deed.merging = some x.latch :=
    fun hx => by rw [Duty.deed, hx]; rfl
  rw [entire_cons, entire_cons, Multiset.filterMap_cons_some _ _ _ (hmerging hplan),
    Multiset.filterMap_cons_some _ _ _ (hmerging hplan'), heq, Multiset.nodup_cons] at honce
  exact honce.1 (Multiset.mem_cons_self _ _)

theorem cut_room (hc : Cutting g hg cmp d head tail m lh rh made)
    (hp : s.pending[d.latch.id]? = some p)
    (hsizes : Nat.size lh + Nat.size rh + 1 ≤ Nat.size m.left.len + Nat.size m.right.len) {x : Duty α}
    (hx : x ∈ parts s.pending.size d head tail + duties) {m' : Merge} (hplan : x.plan = .merge m')
    {q : UInt32}
    (hq : ((s.pending.setIfInBounds d.latch.id (p + 1)).push 0)[x.latch.id]? = some q) :
    q.toNat + Nat.size m'.left.len + Nat.size m'.right.len ≤ 2 ^ 8 := by
  have hd := Multiset.mem_cons_self d duties
  have hroom := h.room d hd m hc.plan p hp
  have hlt := h.path_lt d.latch (self_mem_path _)
  have hset : ∀ X ∈ waiting,
      ((s.pending.setIfInBounds d.latch.id (p + 1)).push 0)[X.id]? =
        if X = d.latch then some (p + 1) else s.pending[X.id]? := by
    intro X hX
    have hXlt := h.balanced.id_lt hX
    rw [Array.getElem?_push, if_neg (by rw [Array.size_setIfInBounds]; omega),
      h.balanced.pending_set h.latch_waiting hX]
  simp only [parts, Multiset.insert_eq_cons, Multiset.mem_add, Multiset.mem_cons,
    Multiset.mem_singleton] at hx
  rcases hx with (rfl | rfl) | hx
  · obtain rfl := Plan.merge.inj (hc.plan_head.symm.trans hplan)
    rw [hc.latch, hset _ h.latch_waiting, if_pos rfl] at hq
    obtain rfl := Option.some.inj hq
    rw [toNat_raise (by omega)]
    simp only [Merge.head]
    omega
  · obtain rfl := Plan.merge.inj (hc.plan_tail.symm.trans hplan)
    have hid : (tail.to (.part s.pending.size d.latch)).latch.id =
        (s.pending.setIfInBounds d.latch.id (p + 1)).size := by
      rw [Array.size_setIfInBounds]
      rfl
    rw [hid, Array.getElem?_push_size] at hq
    obtain rfl := Option.some.inj hq
    have hys := h.lt
    have hwithin := h.within
    rw [hc.plan] at hwithin
    simp only [Plan.job, Job.Within, Span.stop] at hwithin
    have hleft : Nat.size (m.left.len - lh) ≤ 64 := Nat.size_le.2 (by omega)
    have hright : Nat.size (m.right.len - rh) ≤ 64 := Nat.size_le.2 (by omega)
    rw [UInt32.toNat_zero]
    simp only [Merge.tail]
    omega
  · have hx' := Multiset.mem_cons_of_mem (b := d) hx
    rw [hset _ (h.duty_waiting hx'), if_neg (h.latch_ne hc.plan hx hplan)] at hq
    exact h.room x hx' m' hplan q hq

/-- A merge may come apart at a cut. -/
theorem cut (hc : Cutting g hg cmp d head tail m lh rh made)
    (hp : s.pending[d.latch.id]? = some p) (hpos : 0 < lh + rh)
    (hshrinks : lh + rh < m.left.len + m.right.len)
    (hsizes : Nat.size lh + Nat.size rh + 1 ≤ Nat.size m.left.len + Nat.size m.right.len) :
    Sound g hg cmp ys all K
      (.work d.latch (.merge (m.head lh rh)) ::ₘ
        .work (.part s.pending.size d.latch)
          (.merge (m.tail m.left.len m.right.len lh rh)) ::ₘ walkers)
      (.part s.pending.size d.latch ::ₘ waiting) (parts s.pending.size d head tail + duties)
      (s.cutOff d.latch m m.left.len m.right.len p) (calls ++ made) := by
  have hlog : (s.cutOff d.latch m m.left.len m.right.len p).log.toList =
      s.log.toList ++ [.did d.latch (.search m.source m.left m.right)] ++ [.raised d.latch] ++
        [.opened (.part s.pending.size d.latch)] := by
    simp only [Store.cutOff, Array.toList_push]
  have hsize : (s.cutOff d.latch m m.left.len m.right.len p).pending.size = s.pending.size + 1 := by
    simp only [Store.cutOff, Array.size_push, Array.size_setIfInBounds]
  have hlt : p.toNat + 1 < 2 ^ 32 := by
    have := h.room d (Multiset.mem_cons_self _ _) m hc.plan p hp
    omega
  have hdeeds : deeds (s.log.toList ++ [.did d.latch (.search m.source m.left m.right)] ++
      [.raised d.latch] ++ [.opened (.part s.pending.size d.latch)]) =
        deeds s.log.toList ++ [d.search m] := by
    rw [deeds_concat, deeds_concat, deeds_concat, deeds_did]
    simp [deeds, Duty.search]
  have hopened : opened (s.log.toList ++ [.did d.latch (.search m.source m.left m.right)] ++
      [.raised d.latch] ++ [.opened (.part s.pending.size d.latch)]) =
        opened s.log.toList ++ [.part s.pending.size d.latch] := by
    rw [opened_concat, opened_concat, opened_concat, opened_opened]
    simp [opened]
  have hrefines := h.cut_refines hc
  refine h.replace _ _ _ (hsize ▸ hrefines) (funext fun b => Store.buffer_cutOff _ _ _ _ _ _ b)
    (hsize ▸ Nat.le_add_right _ _) (hlog ▸ hdeeds) ?balanced (hlog ▸ h.cut_chronicle hp hlt _)
    ?agenda ?triggers ?fed ?dated ?listed ?room ?root ?completed ?cost
  case balanced =>
    rw [Multiset.map_cons, Multiset.map_cons]
    exact h.cut_balanced hp hlt
  case agenda =>
    rw [parts, Multiset.insert_eq_cons, Multiset.map_cons, Multiset.map_singleton, Duty.entry,
      Duty.entry, Duty.to, hc.latch, hc.plan_head, hc.plan_tail, plans_work, plans_work, plans_part,
      Multiset.cons_add, Multiset.singleton_add]
  case triggers =>
    intro id m' next hmem
    exact .inl ((Multiset.mem_cons.1 hmem).resolve_left (by simp))
  case fed =>
    rw [hsize]
    exact hc.fed (h.assigned.fed d (Multiset.mem_cons_self _ _)) h.within
      fun id m next => h.next_lt
  case dated =>
    rw [hlog, hdeeds, hopened]
    exact (h.dated_concat _).opened (by simp)
  case listed =>
    rw [hlog, hopened]
    exact h.cut_listed hc
  case room => exact fun x hx m' hplan q hq => h.cut_room hc hp hsizes hx hplan hq
  case root => exact Multiset.mem_cons_of_mem h.root_waiting
  case completed =>
    rw [hlog, List.append_assoc, List.append_assoc]
    exact h.not_completed (by simp)
  case cost =>
    simp only [parts, Multiset.insert_eq_cons, Multiset.map_cons, Multiset.map_singleton,
      Multiset.sum_cons, Multiset.sum_singleton, Multiset.card_cons, Duty.to, hc.plan,
      hc.plan_head, hc.plan_tail, Plan.forks, Merge.head, Merge.tail]
    have := hc.left_le
    have := hc.right_le
    omega

end

end Sound

end ForkJoin.Sorting

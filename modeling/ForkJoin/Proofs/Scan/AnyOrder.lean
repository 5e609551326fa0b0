import Mathlib.Algebra.Order.BigOperators.Group.Finset
import Mathlib.Algebra.Order.Group.Multiset
import ForkJoin.Proofs.Scan.ClosedForm
import ForkJoin.Proofs.Scan.EveryStep

/-!
# A scan by visits in any order

From the start on, whatever the policy, the visits of a scan never miss a slot, a leaf is swept at
most once and not before its sum was taken, and the end is announced when all leaves are swept. When
no visit is live any more, the end was announced, and the elements are those that a single worker
leaves: `steps_orderly`.
-/
namespace ForkJoin.Scan

open Calling Store

variable {α ε : Type}

/-! ## The start -/

/-- The scan of an array that is not empty. -/
def Setting.ofArray (op : α → α → α) {threshold : Nat} (ht : 0 < threshold) {xs : Array α}
    (hxs : 0 < xs.size) : Setting α where
  plan := Plan.ofLength threshold ht xs.size
  family := Plan.isFamily_ofLength ht hxs
  op := op
  elem i := xs[i]?.getD xs[0]

/-- A visit comes to the root, and nothing else has happened. -/
def Stage.start (t : Nat) : Stage := if t = 0 then { up := .enter } else {}

theorem Stage.start_eq (t : Nat) : start t = {} ∧ t ≠ 0 ∨ start t = { up := .enter } := by
  by_cases h : t = 0
  · exact .inr (if_pos h)
  · exact .inl ⟨if_neg h, h⟩

section Start

variable {op : α → α → α} {threshold : Nat} {ht : 0 < threshold} {xs : Array α}
  {hxs : 0 < xs.size} {t : Nat}

theorem Setting.elem_ofArray {i : Nat} (hi : i < xs.size) :
    xs[i]? = some ((ofArray op ht hxs).elem i) := by
  rw [show (ofArray op ht hxs).elem i = xs[i]?.getD xs[0] from rfl, Array.getElem?_eq_getElem hi,
    Option.getD_some]

/-- The elements of a node of the scan of an array. -/
theorem Setting.original_ofArray (ht' : t < (ofArray op ht hxs).plan.nodes.size) :
    (ofArray op ht hxs).original t =
      (xs.extract ((ofArray op ht hxs).plan.span t).start
        ((ofArray op ht hxs).plan.span t).stop).toList := by
  have hstop : ((ofArray op ht hxs).plan.span t).stop ≤ xs.size :=
    (ofArray op ht hxs).family.stop_le ht'
  refine List.ext_getElem? fun i => ?_
  rw [Setting.original, List.getElem?_map]
  conv_rhs => rw [Array.getElem?_toList, Array.getElem?_extract, Nat.min_eq_left hstop]
  by_cases hi : i < ((ofArray op ht hxs).plan.span t).len
  · have hi' : ((ofArray op ht hxs).plan.span t).start + i < xs.size := by
      rw [Span.stop] at hstop
      omega
    rw [List.getElem?_range' hi, if_pos (by rw [Span.stop]; omega), Option.map_some, Nat.one_mul,
      elem_ofArray hi']
  · rw [List.getElem?_eq_none (by rw [List.length_range']; omega),
      if_neg (by rw [Span.stop]; omega), Option.map_none]

/-- A node to whose children nothing has come. -/
theorem Linked.start {first leftLeaf : Bool} {up : Up} (hup : up = .idle ∨ up = .enter) :
    Linked first leftLeaf { up := up } ⟨.idle, Down.Face.idle.shown first⟩ ⟨.idle, .idle⟩ := by
  have hup' : up ≠ .below ∧ up.ready = false ∧ up.atLeaf = false := by
    rcases hup with rfl | rfl <;> exact ⟨by simp, rfl, rfl⟩
  exact
    { before := fun _ => ⟨rfl, rfl⟩
      below := fun hb => absurd hb hup'.1
      ready := fun hr => by rw [hup'.2.1] at hr; cases hr
      up := hup'.2.2
      left := by rintro _ ⟨⟩
      right := by rintro _ ⟨⟩
      joined := rfl
      again := by simp
      fresh := fun _ => ⟨rfl, fun hf => by rw [hf]; rfl⟩
      waking := by simp
      sweeping := by simp
      swept := by rintro ⟨⟩
      down := rfl
      awake_first := fun _ => ⟨by simp, iff_of_false (fun hne => hne rfl) (by simp)⟩
      awake_later := fun _ hne => absurd rfl hne }

theorem AtLeaf.start {first : Bool} {up : Up} (hup : up = .idle ∨ up = .enter) :
    AtLeaf first { up := up } := by
  have hup' : up ≠ .below ∧ up ≠ .total ∧ up ≠ .sweep ∧ up ≠ .told := by
    rcases hup with rfl | rfl <;> simp
  exact
    { not_below := hup'.1
      total := fun _ => hup'.2.1
      sweep := fun _ => hup'.2.2.1
      down := rfl
      down_first := fun _ => .inl ⟨rfl, hup'.2.2.2⟩
      down_later := fun _ hne => absurd rfl hne }

theorem holds_start (ht' : t < (Setting.ofArray op ht hxs).plan.nodes.size) :
    (Setting.ofArray op ht hxs).HoldsAt Stage.start
      (Store.start (Setting.ofArray op ht hxs).plan xs) t := by
  have hphase : (Store.start (Setting.ofArray op ht hxs).plan xs).phases[t]? = some {} := by
    rw [Store.start, Array.getElem?_replicate, if_pos ht']
  have horiginal := Setting.original_ofArray ht'
  generalize Setting.ofArray op ht hxs = S at *
  have hwork : LeafWork S (Store.start S.plan xs) t false false := ⟨horiginal.symm, rfl⟩
  obtain ⟨up, hstart, hup, hroot⟩ : ∃ up, Stage.start t = { up := up } ∧
      (up = .idle ∨ up = .enter) ∧ (t = 0 → up = .enter) := by
    rcases Stage.start_eq t with ⟨hstart, hne⟩ | hstart
    · exact ⟨.idle, hstart, .inl rfl, fun h0 => absurd h0 hne⟩
    · exact ⟨.enter, hstart, .inr rfl, fun _ => rfl⟩
  have hearly : up.early = true ∧ up.worked = false ∧ up.ready = false ∧ up.aloft = false := by
    rcases hup with rfl | rfl <;> exact ⟨rfl, rfl, rfl, rfl⟩
  rw [Setting.HoldsAt, hstart]
  constructor
  case sound => rcases hup with rfl | rfl <;> exact ⟨by simp, by simp, by simp, by simp⟩
  case root =>
    intro h0
    exact ⟨by simp [hroot h0], hearly.2.2.2, ⟨by simp, by simp⟩, rfl⟩
  case carry => exact fun _ hne => absurd rfl hne
  case leaf =>
    intro hleaf
    exact
      { stage := .start hup
        phase := ⟨_, hphase, by simp [LeafPhase, hearly.1, Down.early]⟩
        sum := fun _ hready => by rw [hearly.2.2.1] at hready; cases hready
        work := by simpa [Plan.summed, Plan.swept, hearly.2.1, Down.worked] using hwork }
  case cut =>
    intro hleaf
    obtain ⟨l, r, hcut⟩ := S.family.exists_cut ht' hleaf
    have hl : Stage.start l = {} := if_neg (by have := hcut.lt_child S.family (.inl rfl); omega)
    have hr : Stage.start r = {} := if_neg (by have := hcut.lt_child S.family (.inr rfl); omega)
    rw [hcut.kids_eq, Plan.face, Plan.face, hl, hr, hcut.isFirst_left, hcut.isFirst_right S.family]
    exact
      { linked := .start hup
        phase := by
          rw [hphase]
          cases S.plan.isFirst t <;> rfl
        sum := fun _ hor => by rw [hearly.2.2.1] at hor; rcases hor with h | h | h <;> cases h
        left_carry := by rintro _ ⟨⟩
        right_carry := by rintro ⟨⟩ }

/-- The invariant holds at the start. -/
theorem inv_start (op : α → α → α) (ht : 0 < threshold) (hxs : 0 < xs.size) :
    Inv (Setting.ofArray op ht hxs) Stage.start {.enter 0}
      (Store.start (Plan.ofLength threshold ht xs.size) xs) [] where
  fits := fits_start _ _ rfl
  node _ := holds_start
  pool := by
    refine ⟨0, by simp, ?_⟩
    rw [zero_add, Finset.sum_eq_single 0]
    · rfl
    · intro t _ hne
      rw [Stage.start, if_neg hne]
      rfl
    · intro h0
      exact absurd (Finset.mem_range.2 (Setting.ofArray op ht hxs).family.size_pos) h0
  calls := by
    refine (Finset.sum_eq_zero fun t _ => ?_).symm
    rcases Stage.start_eq t with ⟨hstart, _⟩ | hstart <;>
      simp [hstart, Setting.calls, Setting.leafCalls, Setting.cutCalls, Setting.joins, Plan.summed,
        Plan.swept, Up.worked, Down.worked, Down.added]

end Start

/-! ## The end -/

namespace Setting

variable {S : Setting α} {t : Nat} {a : Stage}

/-- A node without a walker has not started, waits, or is done. -/
theorem settled (h : S.walkers t a = 0) :
    (a.up = .idle ∨ a.up = .below ∨ a.up = .told) ∧
      (a.down = .idle ∨ a.down = .called ∨ a.down = .below ∨ a.down = .told) := by
  obtain ⟨hup, hdown⟩ := add_eq_zero.1 h
  constructor
  · cases hcase : a.up <;> simp_all [upWalker]
  · cases hcase : a.down <;> simp_all [downWalker]

/-- The elements of a node that is cut are those of its children, in this order. -/
theorem swept_cut {l r : Nat} (hcut : S.plan.Cut t l r) : S.swept t = S.swept l ++ S.swept r := by
  rw [swept, swept, swept, ← List.map_append, hcut.span_left, hcut.span_right, Span.lower,
    Span.upper, List.range'_append_1]
  congr 2
  simp only
  omega

end Setting

namespace Inv

variable {S : Setting α} {c : Nat → Stage} {s : Store α} {pool : Multiset (Visit α)}
  {calls : List (α × α)} {t : Nat}

/-! ### Once the end was announced -/

/-- If all leaves below the root are swept, this is so below every node. -/
theorem down_told (h : Inv S c pool s calls) (hend : (c 0).down = .told)
    (ht : t < S.plan.nodes.size) : (c t).down = .told := by
  induction t using Nat.strong_induction_on with
  | _ t ih =>
    by_cases h0 : t = 0
    · rw [h0, hend]
    · obtain ⟨p, l, r, hcut, htlr⟩ := S.family.exists_parent ht h0
      have hparent := ih p (hcut.lt_child S.family htlr) hcut.lt_size
      obtain ⟨hl, hr⟩ := (h.cut hcut).linked.swept (by rw [hparent]; rfl)
      rcases htlr with rfl | rfl
      · exact Plan.face_down_told hl
      · exact Plan.face_down_told hr

theorem leaf_swept (h : Inv S c pool s calls) (ht : t < S.plan.nodes.size)
    (hleaf : S.plan.IsLeaf t) (hdown : (c t).down = .told) : S.plan.swept t (c t) = true := by
  cases hf : S.plan.isFirst t with
  | true =>
    have hup := ((h.node t ht).leaf hleaf).stage.down_first hf
    rw [hdown] at hup
    rw [Plan.swept, if_pos hf, (hup.resolve_left fun hn => by cases hn.1).2]
    rfl
  | false =>
    rw [Plan.swept, hf, hdown]
    rfl

theorem end_of_completed (h : Inv S c pool s calls) (hend : s.completed = true) :
    (c 0).down = .told := by
  have := ((h.node 0 S.family.size_pos).root rfl).done
  rw [hend] at this
  exact beq_iff_eq.1 this.symm

/-! ### Once no visit is live -/

theorem walkers_eq_zero (h : Inv S c 0 s calls) (ht : t < S.plan.nodes.size) :
    S.walkers t (c t) = 0 := by
  obtain ⟨idlers, _, hpool⟩ := h.pool
  exact Finset.sum_eq_zero_iff.1 (add_eq_zero.1 hpool.symm).2 t (Finset.mem_range.2 ht)

/-- Nobody waits for a first pass: the lowest who does would have a walker below. -/
theorem up_ne_below (h : Inv S c 0 s calls) (ht : t < S.plan.nodes.size) :
    (c t).up ≠ .below := by
  induction hn : S.plan.nodes.size - t using Nat.strong_induction_on generalizing t with
  | _ n ih =>
    intro hbelow
    obtain ⟨l, r, hcut⟩ := S.family.exists_cut ht fun hleaf =>
      ((h.node t ht).leaf hleaf).stage.not_below hbelow
    obtain ⟨hl, hr, htold⟩ := (h.cut hcut).linked.below hbelow
    have hchild : ∀ k, k = l ∨ k = r → (S.plan.face c k).up ≠ .idle →
        (S.plan.face c k).up = .told := by
      intro k hk hidle
      have hlt := hcut.lt_child S.family hk
      have hsize := hcut.child_lt_size hk
      rcases (S.settled (h.walkers_eq_zero hsize)).1 with hup | hup | hup
      · exact absurd (Up.face_eq_idle.2 hup) hidle
      · exact absurd hup (ih _ (by omega) hsize rfl)
      · exact Up.face_eq_told.2 hup
    exact htold ⟨hchild l (.inl rfl) hl, hchild r (.inr rfl) hr⟩

/-- The first pass of every node is over. -/
theorem up_told (h : Inv S c 0 s calls) (ht : t < S.plan.nodes.size) : (c t).up = .told := by
  induction t using Nat.strong_induction_on with
  | _ t ih =>
    by_cases h0 : t = 0
    · subst h0
      rcases (S.settled (h.walkers_eq_zero ht)).1 with hup | hup | hup
      · exact absurd hup ((h.node 0 ht).root rfl).started
      · exact absurd hup (h.up_ne_below ht)
      · exact hup
    · obtain ⟨p, l, r, hcut, htlr⟩ := S.family.exists_parent ht h0
      have hparent := ih p (hcut.lt_child S.family htlr) hcut.lt_size
      obtain ⟨hl, hr⟩ := (h.cut hcut).linked.ready (by rw [hparent]; rfl)
      rcases htlr with rfl | rfl
      · exact Plan.face_up_told hl
      · exact Plan.face_up_told hr

/-- The second pass of a first node has started. -/
theorem down_ne_idle (h : Inv S c 0 s calls) (ht : t < S.plan.nodes.size)
    (hf : S.plan.isFirst t = true) : (c t).down ≠ .idle := by
  intro hidle
  by_cases hleaf : S.plan.IsLeaf t
  · rcases ((h.node t ht).leaf hleaf).stage.down_first hf with ⟨_, hne⟩ | ⟨htold, _⟩
    · exact hne (h.up_told ht)
    · rw [hidle] at htold
      cases htold
  · obtain ⟨l, r, hcut⟩ := S.family.exists_cut ht hleaf
    exact ((h.cut hcut).linked.awake_first hf).2.2
      ⟨Up.face_eq_told.2 (h.up_told hcut.left_lt_size),
        Up.face_eq_told.2 (h.up_told hcut.right_lt_size)⟩ hidle

/-- Nobody waits for a second pass. -/
theorem down_ne_below (h : Inv S c 0 s calls) (ht : t < S.plan.nodes.size) :
    (c t).down ≠ .below := by
  induction hn : S.plan.nodes.size - t using Nat.strong_induction_on generalizing t with
  | _ n ih =>
    intro hbelow
    obtain ⟨l, r, hcut⟩ := S.family.exists_cut ht fun hleaf => by
      have := ((h.node t ht).leaf hleaf).stage.down
      rw [hbelow] at this
      cases this
    obtain ⟨hl, hr, htold⟩ := (h.cut hcut).linked.sweeping hbelow
    have hchild : ∀ k, k = l ∨ k = r → (S.plan.face c k).down ≠ .busy := by
      intro k hk hbusy
      have hlt := hcut.lt_child S.family hk
      have hsize := hcut.child_lt_size hk
      rw [Plan.face] at hbusy
      rcases (S.settled (h.walkers_eq_zero hsize)).2 with hdown | hdown | hdown | hdown
      · cases hf : S.plan.isFirst k with
        | true => exact h.down_ne_idle hsize hf hdown
        | false => simp [hdown, hf, Down.face] at hbusy
      · simp [hdown, Down.face, Down.Face.shown] at hbusy
      · exact ih _ (by omega) hsize rfl hdown
      · simp [hdown, Down.face, Down.Face.shown] at hbusy
    exact htold ⟨hl.resolve_left (hchild l (.inl rfl)), hr.resolve_left (hchild r (.inr rfl))⟩

/-- **When no visit is live, the second pass is over.** -/
theorem end_of_empty (h : Inv S c 0 s calls) : (c 0).down = .told := by
  have h0 := S.family.size_pos
  have hfirst : S.plan.isFirst 0 = true := by
    rw [Plan.isFirst, S.family.span_root]
    rfl
  rcases (S.settled (h.walkers_eq_zero h0)).2 with hdown | hdown | hdown | hdown
  · exact absurd hdown (h.down_ne_idle h0 hfirst)
  · exact absurd hdown ((h.node 0 h0).root rfl).down.1
  · exact absurd hdown (h.down_ne_below h0)
  · exact hdown

/-! ### The elements at the end -/

theorem segment_of_end (h : Inv S c pool s calls) (hend : (c 0).down = .told)
    (ht : t < S.plan.nodes.size) : s.segment (S.plan.span t) = S.swept t := by
  induction hn : S.plan.nodes.size - t using Nat.strong_induction_on generalizing t with
  | _ n ih =>
    by_cases hleaf : S.plan.IsLeaf t
    · have hsegment := ((h.node t ht).leaf hleaf).work.segment
      rwa [h.leaf_swept ht hleaf (h.down_told hend ht), if_pos rfl] at hsegment
    · obtain ⟨l, r, hcut⟩ := S.family.exists_cut ht hleaf
      have hl := hcut.lt_child S.family (.inl rfl)
      have hr := hcut.lt_child S.family (.inr rfl)
      rw [segment_halves, ← hcut.span_left, ← hcut.span_right, S.swept_cut hcut,
        ih _ (by omega) hcut.left_lt_size rfl, ih _ (by omega) hcut.right_lt_size rfl]

/-- All elements are replaced. -/
theorem cells_of_end (h : Inv S c pool s calls) (hend : (c 0).down = .told) :
    s.cells.toList = (List.range S.plan.len).map S.result := by
  have hroot := h.segment_of_end hend S.family.size_pos
  rw [Setting.swept, S.family.span_root, ← List.range_eq_range'] at hroot
  rw [← hroot, Store.segment, Span.stop, Nat.zero_add, ← h.fits.cells, Array.extract_size]

end Inv

/-! ## What a run tells of the leaves -/

/-- What can be said at any time of a run of the visits of this plan. -/
structure Orderly (plan : Plan) (xs : Array α) (s : Store α) : Prop where
  /-- A leaf is swept once, and its sum is taken before, but for those at the ends of the window. -/
  events : ∀ t < plan.nodes.size, plan.IsLeaf t → s.events t <+:
    if plan.isFirst t || plan.isLast (plan.span t) then [.swept t] else [.summed t, .swept t]
  /-- Until then its elements are untouched. -/
  untouched : ∀ t < plan.nodes.size, plan.IsLeaf t → .swept t ∉ s.log →
    s.segment (plan.span t) = (xs.extract (plan.span t).start (plan.span t).stop).toList
  /-- When the end is announced, all leaves are swept. -/
  completed : s.completed = true → ∀ t < plan.nodes.size, plan.IsLeaf t → .swept t ∈ s.log

namespace Inv

variable {S : Setting α} {c : Nat → Stage} {s : Store α} {pool : Multiset (Visit α)}
  {calls : List (α × α)} {t : Nat}

theorem events_prefix (h : Inv S c pool s calls) (ht : t < S.plan.nodes.size)
    (hleaf : S.plan.IsLeaf t) : s.events t <+:
      if S.plan.isFirst t || S.plan.isLast (S.plan.span t) then [.swept t]
      else [.summed t, .swept t] := by
  have hl := (h.node t ht).leaf hleaf
  rw [hl.work.log, Plan.summed, Plan.swept]
  cases hf : S.plan.isFirst t with
  | true => cases (c t).up.worked <;> simp
  | false =>
    cases hlast : S.plan.isLast (S.plan.span t) with
    | true => cases (c t).down.worked <;> simp
    | false =>
      cases hdown : (c t).down.worked with
      | false => cases (c t).up.worked <;> simp
      | true =>
        have hup := hl.stage.down_later hf (by rintro hidle; rw [hidle] at hdown; cases hdown)
        simp [hup, Up.worked]

theorem mem_log_of_swept (h : Inv S c pool s calls) (ht : t < S.plan.nodes.size)
    (hleaf : S.plan.IsLeaf t) (hswept : S.plan.swept t (c t) = true) : .swept t ∈ s.log := by
  have hlog := ((h.node t ht).leaf hleaf).work.log
  rw [hswept, if_pos rfl] at hlog
  have hmem : Event.swept t ∈ s.events t := by simp [hlog]
  exact Array.mem_toList_iff.1 (List.mem_filter.1 hmem).1

end Inv

section

variable {op : α → α → α} {threshold : Nat} {ht : 0 < threshold} {xs : Array α}
  {hxs : 0 < xs.size} {c : Nat → Stage} {s : Store α} {pool : Multiset (Visit α)}
  {calls : List (α × α)}

theorem Inv.orderly (h : Inv (Setting.ofArray op ht hxs) c pool s calls) :
    Orderly (Plan.ofLength threshold ht xs.size) xs s where
  events t ht' hleaf := h.events_prefix ht' hleaf
  untouched t ht' hleaf hnot := by
    have hsegment := ((h.node t ht').leaf hleaf).work.segment
    rw [Bool.eq_false_iff.2 fun hswept => hnot (h.mem_log_of_swept ht' hleaf hswept),
      if_neg Bool.false_ne_true] at hsegment
    exact hsegment.trans (Setting.original_ofArray ht')
  completed hend t ht' hleaf :=
    h.mem_log_of_swept ht' hleaf (h.leaf_swept ht' hleaf (h.down_told (h.end_of_completed hend) ht'))

/-- The value at a position is that of its grouping, and so the same for every policy. -/
theorem Setting.result_ofArray {ys : List α} (hys : Bracketed op threshold ht xs.toList ys) :
    (List.range xs.size).map (ofArray op ht hxs).result = ys := by
  refine List.ext_getElem? fun i => ?_
  have hlen : ys.length = xs.size := hys.length
  by_cases hi : i < xs.size
  · obtain ⟨g, y, hg, hy, hi'⟩ := hys.value i hi
    have hvalue : g.value op xs.toList = some ((ofArray op ht hxs).worth g) := by
      refine Grouping.value_eq_eval fun j hj => ?_
      obtain ⟨g', hg', hindices⟩ := Grouping.indices_upTo threshold ht xs.toList.length i
      obtain rfl := Option.some.inj (hg.symm.trans hg')
      rw [hindices, List.mem_range] at hj
      rw [Array.getElem?_toList, elem_ofArray (by omega)]
    have hresult : (ofArray op ht hxs).result i = (ofArray op ht hxs).worth g :=
      congrArg (fun o => (Option.map (ofArray op ht hxs).worth o).getD ((ofArray op ht hxs).elem i))
        hg
    rw [List.getElem?_map, List.getElem?_range hi, Option.map_some, hi', hresult]
    exact hvalue.symm.trans hy
  · rw [List.getElem?_eq_none (by rw [List.length_map, List.length_range]; omega),
      List.getElem?_eq_none (by omega)]

/-- However many steps were taken under whatever policy, there was a result, and the invariant holds. -/
theorem exists_inv (op : α → α → α) (ht : 0 < threshold) (hxs : 0 < xs.size) (policy : Policy)
    (k : Nat) : ∃ pool s calls c,
      ((Work.steps (Visit.step (Plan.ofLength threshold ht xs.size)) policy k [.enter 0]).run
          (Store.start (Plan.ofLength threshold ht xs.size) xs)).run
        (fun a b => (.ok (op a b) : Except ε α)) = .ok ⟨(pool, s), calls.toArray⟩ ∧
      Inv (Setting.ofArray op ht hxs) c (pool : List (Visit α)) s calls := by
  have hstart : ∃ c, Inv (Setting.ofArray op ht hxs) c (([.enter 0] : List (Visit α)) : Multiset _)
      (Store.start (Plan.ofLength threshold ht xs.size) xs) [] := ⟨_, inv_start op ht hxs⟩
  obtain ⟨pool, s, made, hreturns, c, h⟩ :=
    Work.steps_keep (Inv.keeps (Setting.ofArray op ht hxs)) policy k hstart
  exact ⟨pool, s, made, c, hreturns.run, h⟩

/-- **The visits of a scan are safe under every policy.** However many steps were taken, no slot was
missed, and what the log and the elements tell is in order; if no visit is live any more, the end was
announced, and the elements are those of the scan by a single worker. -/
theorem steps_orderly (op : α → α → α) (ht : 0 < threshold) (hxs : 0 < xs.size) (policy : Policy)
    (k : Nat) : ∃ pool s calls,
      ((Work.steps (Visit.step (Plan.ofLength threshold ht xs.size)) policy k [.enter 0]).run
          (Store.start (Plan.ofLength threshold ht xs.size) xs)).run
        (fun a b => (.ok (op a b) : Except ε α)) = .ok ⟨(pool, s), calls⟩ ∧
      Orderly (Plan.ofLength threshold ht xs.size) xs s ∧
      (pool = [] → s.completed = true ∧ ∃ calls', (scanArray threshold ht xs).run
        (fun a b => (.ok (op a b) : Except ε α)) = .ok ⟨s.cells, calls'⟩) := by
  obtain ⟨pool, s, calls, c, hrun, h⟩ := exists_inv op ht hxs policy k
  refine ⟨pool, s, calls.toArray, hrun, h.orderly, ?_⟩
  rintro rfl
  have hend := h.end_of_empty
  obtain ⟨report, hrun, hys⟩ : ∃ report, (scanArray threshold ht xs).run
      (fun a b => (.ok (op a b) : Except ε α)) = .ok report ∧
        Bracketed op threshold ht xs.toList report.result.toList :=
    exists_scanArray (P := fun _ => True) (fun _ _ _ _ => trivial) (fun _ _ _ _ => rfl) ht
      fun _ _ => trivial
  have hcells : s.cells = report.result := by
    rw [← Array.toList_inj, h.cells_of_end hend]
    exact Setting.result_ofArray hys
  refine ⟨?_, report.calls, ?_⟩
  · rw [((h.node 0 (Setting.ofArray op ht hxs).family.size_pos).root rfl).done, hend]
    rfl
  · rw [hrun, hcells]

end

/-- Three numbers, with the live visits taken in a changing order. -/
theorem steps_orderly_three : 0 < 1 ∧ 0 < #[1, 2, 3].size ∧ ∃ s calls,
    ((Work.steps (Visit.step (Plan.ofLength 1 Nat.one_pos 3)) (fun k => k / 2) 70 [.enter 0]).run
        (Store.start (Plan.ofLength 1 Nat.one_pos 3) #[1, 2, 3])).run
      (fun a b : Nat => (.ok (a + b) : Except String Nat)) = .ok ⟨([], s), calls⟩ ∧
    Orderly (Plan.ofLength 1 Nat.one_pos 3) #[1, 2, 3] s ∧ s.completed = true ∧
    s.cells = #[1, 3, 6] := by
  have hempty : (((Work.steps (Visit.step (Plan.ofLength 1 Nat.one_pos 3)) (fun k => k / 2) 70
      [.enter 0]).run (Store.start (Plan.ofLength 1 Nat.one_pos 3) #[1, 2, 3])).run
        (fun a b : Nat => (.ok (a + b) : Except String Nat))).toOption.map
      (fun report => report.result.1.length) = some 0 := by
    decide +kernel
  have hcells : ((scanArray 1 Nat.one_pos #[1, 2, 3]).run
      (fun a b : Nat => (.ok (a + b) : Except String Nat))).toOption.map
        (fun report => report.result) = some #[1, 3, 6] := by
    decide +kernel
  have hsize : 0 < #[1, 2, 3].size := by decide
  obtain ⟨pool, s, calls, hrun, horderly, hend⟩ :=
    steps_orderly (ε := String) (fun a b : Nat => a + b) Nat.one_pos hsize (fun k => k / 2) 70
  obtain ⟨report, hreport, hpool⟩ := exists_report hempty
  obtain rfl := Except.ok.inj (hrun.symm.trans hreport)
  obtain rfl : pool = [] := List.eq_nil_of_length_eq_zero hpool
  obtain ⟨hcompleted, calls', hscan⟩ := hend rfl
  rw [hscan] at hcells
  exact ⟨Nat.one_pos, hsize, s, calls, hrun, horderly, hcompleted, Option.some.inj hcells⟩

end ForkJoin.Scan
